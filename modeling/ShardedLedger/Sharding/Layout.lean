import ShardedLedger.Sharding.Manager

/-! The shard manager one level up: the list `GetAllShards` returns, each shard an ID with its
blocks. A pass inserts shards into a fresh index, which returns them sorted stably by ID; so a
pass is the list of shards it inserts, then that sort. -/

namespace ShardedLedger.Sharding
open ShardedLedger.Core

theorem perm_foldl_orderedInsert {β : Type} (r : β → β → Prop) [DecidableRel r] :
    ∀ (xs l : List β), (xs.foldl (fun l x => l.orderedInsert r x) l).Perm (l ++ xs)
  | [], l => by simp
  | x :: xs, l => (perm_foldl_orderedInsert r xs _).trans <| by
    simpa using ((List.perm_orderedInsert r x l).append_right xs).trans List.perm_middle.symm

namespace Layout

/-- What a fresh index returns after the shards `l` are inserted in order. -/
def sortById (l : List (Int × List Block)) : List (Int × List Block) :=
  l.foldl (fun acc p => acc.orderedInsert (fun a b => a.1 < b.1) p) []

/-- The shards a `RebalanceShards` pass inserts; `c` is the ID the next split gives. -/
def splitPass : Int → List (Int × List Block) → List (Int × List Block)
  | _, [] => []
  | c, p :: rest =>
    if maxBlocksPerShard < p.2.length then
      (p.1, p.2.take (p.2.length / 2)) :: (c, p.2.drop (p.2.length / 2)) :: splitPass (c + 1) rest
    else p :: splitPass c rest

/-- The shards a `MergeShards(t)` pass inserts. -/
def mergePass (t : Int) : List (Int × List Block) → List (Int × List Block)
  | [] => []
  | [p] => [p]
  | p :: q :: rest =>
    if (p.2.length : Int) < t then (p.1, p.2 ++ q.2) :: mergePass t rest
    else p :: mergePass t (q :: rest)

def rebalance (l : List (Int × List Block)) : List (Int × List Block) :=
  sortById (splitPass l.length l)

def distribute (l : List (Int × List Block)) (b : Block) : Option (List (Int × List Block)) :=
  l.getLast?.map fun p => rebalance (l.dropLast ++ [(p.1, p.2 ++ [b])])

def merge (t : Int) (l : List (Int × List Block)) : List (Int × List Block) := sortById (mergePass t l)

def step : Op → List (Int × List Block) → Option (List (Int × List Block))
  | .distribute b, l => distribute l b
  | .merge t, l => some (merge t l)

def run : List Op → List (Int × List Block) → Option (List (Int × List Block))
  | [], l => some l
  | op :: ops, l => (step op l).bind (run ops)

theorem run_append (ops ops' : List Op) (l : List (Int × List Block)) :
    run (ops ++ ops') l = (run ops l).bind (run ops') := by
  induction ops generalizing l with
  | nil => rfl
  | cons op ops ih => cases h : step op l <;> simp [run, h, ih]

private theorem mem_sortById {p : Int × List Block} {l : List (Int × List Block)} :
    p ∈ sortById l ↔ p ∈ l := by
  simp [sortById, Index.mem_foldl_orderedInsert Prod.fst]

/-- The IDs strictly increase along the list. -/
def Increasing (l : List (Int × List Block)) : Prop := (l.map Prod.fst).Sorted (· < ·)

private theorem foldl_orderedInsert_of_increasing :
    ∀ l acc : List (Int × List Block), Increasing (acc ++ l) →
      l.foldl (fun acc p => acc.orderedInsert (fun a b => a.1 < b.1) p) acc = acc ++ l
  | [], acc, _ => by simp
  | p :: l, acc, h => by
    have h' : (acc.map Prod.fst ++ p.1 :: l.map Prod.fst).Pairwise (· < ·) := by
      simpa [Increasing] using h
    have hp : ∀ a ∈ acc, a.1 ≤ p.1 := fun a ha =>
      ((List.pairwise_append.1 h').2.2 _ (List.mem_map_of_mem _ ha) _ (by simp)).le
    have hins := Index.orderedInsert_append_of_le Prod.fst acc [] hp
    rw [List.append_nil] at hins
    rw [List.foldl_cons, hins, foldl_orderedInsert_of_increasing l _ (by simpa using h)]
    simp [List.orderedInsert]

private theorem sortById_of_increasing {l : List (Int × List Block)} (h : Increasing l) : sortById l = l :=
  foldl_orderedInsert_of_increasing l [] h

private theorem length_sortById (l : List (Int × List Block)) : (sortById l).length = l.length := by
  simpa using (perm_foldl_orderedInsert _ l []).length_eq

private theorem perm_sortById (l : List (Int × List Block)) : (sortById l).Perm l := by
  simpa using perm_foldl_orderedInsert _ l []

private theorem sortById_ne_nil {l : List (Int × List Block)} (h : l ≠ []) : sortById l ≠ [] := by
  obtain ⟨p, hp⟩ := List.exists_mem_of_ne_nil l h
  exact List.ne_nil_of_mem (mem_sortById.2 hp)

/-! ### Rebalancing -/

theorem splitPass_cons (c : Int) (p : Int × List Block) (rest : List (Int × List Block)) :
    splitPass c (p :: rest) =
      splitPass c [p] ++ splitPass (if maxBlocksPerShard < p.2.length then c + 1 else c) rest := by
  by_cases h : maxBlocksPerShard < p.2.length <;> simp [splitPass, h]

private theorem splitPass_append_of_small (c : Int) : ∀ l₁ l₂ : List (Int × List Block),
    (∀ p ∈ l₁, p.2.length ≤ maxBlocksPerShard) → splitPass c (l₁ ++ l₂) = l₁ ++ splitPass c l₂
  | [], _, _ => rfl
  | p :: l₁, l₂, h => by
    rw [List.cons_append, splitPass, if_neg (not_lt.2 (h p (List.mem_cons_self _ _))),
      splitPass_append_of_small c l₁ l₂ fun q hq => h q (List.mem_cons_of_mem _ hq)]
    rfl

private theorem flatMap_splitPass : ∀ (c : Int) (l : List (Int × List Block)),
    (splitPass c l).flatMap Prod.snd = l.flatMap Prod.snd
  | _, [] => rfl
  | c, p :: l => by
    unfold splitPass
    split_ifs <;> simp [flatMap_splitPass _ l, ← List.append_assoc]

private theorem splitPass_ne_nil (c : Int) {l : List (Int × List Block)} (h : l ≠ []) : splitPass c l ≠ [] := by
  cases l with
  | nil => exact absurd rfl h
  | cons p l => unfold splitPass; split_ifs <;> simp

private theorem length_splitPass : ∀ (c : Int) (l : List (Int × List Block)),
    (splitPass c l).length = l.length + (l.filter fun p => maxBlocksPerShard < p.2.length).length
  | _, [] => rfl
  | c, p :: l => by
    unfold splitPass
    split_ifs with h <;> simp [length_splitPass _ l, List.filter_cons, h] <;> omega

theorem length_rebalance (l : List (Int × List Block)) :
    (rebalance l).length = l.length + (l.filter fun p => maxBlocksPerShard < p.2.length).length := by
  rw [rebalance, length_sortById, length_splitPass]

private theorem splitPass_small : ∀ (c : Int) (l : List (Int × List Block)),
    (∀ p ∈ l, p.2.length ≤ 2 * maxBlocksPerShard) → ∀ p ∈ splitPass c l, p.2.length ≤ maxBlocksPerShard
  | _, [], _ => by simp [splitPass]
  | c, p :: l, h => by
    have hp := h p (List.mem_cons_self _ _)
    have hl := fun c' => splitPass_small c' l fun q hq => h q (List.mem_cons_of_mem _ hq)
    unfold splitPass
    split_ifs with hs
    · simp only [List.mem_cons]
      rintro q (rfl | rfl | hq)
      · simp only [List.length_take, maxBlocksPerShard] at hp ⊢; omega
      · simp only [List.length_drop, maxBlocksPerShard] at hp ⊢; omega
      · exact hl _ q hq
    · simp only [List.mem_cons]
      rintro q (rfl | hq)
      · exact not_lt.1 hs
      · exact hl _ q hq

/-- The states `DistributeBlock` alone reaches: IDs `0, 1, …, n-1` in order, and no shard over
`MaxBlocksPerShard`. -/
structure Tidy (l : List (Int × List Block)) : Prop where
  ids : l.map Prod.fst = (List.range l.length).map fun n : Nat => (n : Int)
  small : ∀ p ∈ l, p.2.length ≤ maxBlocksPerShard
  ne_nil : l ≠ []

private theorem increasing_range (n : Nat) : ((List.range n).map fun n : Nat => (n : Int)).Sorted (· < ·) :=
  (List.pairwise_lt_range n).map _ fun _ _ h => by exact_mod_cast h

theorem Tidy.increasing {l : List (Int × List Block)} (h : Tidy l) : Increasing l := by
  rw [Increasing, h.ids]
  exact increasing_range _

private theorem eq_append_getLast {l : List (Int × List Block)} (h : l ≠ []) :
    ∃ init p, l = init ++ [p] := by
  rcases List.eq_nil_or_concat l with h0 | ⟨L, q, rfl⟩
  · exact absurd h0 h
  · exact ⟨L, q, List.concat_eq_append _ _⟩

theorem distribute_append (init : List (Int × List Block)) (p : Int × List Block) (b : Block) :
    distribute (init ++ [p]) b = some (rebalance (init ++ [(p.1, p.2 ++ [b])])) := by
  simp [distribute, List.dropLast_concat]

theorem distribute_tidy {l : List (Int × List Block)} (h : Tidy l) (b : Block) :
    ∃ l', distribute l b = some l' ∧ Tidy l' ∧ l'.flatMap Prod.snd = l.flatMap Prod.snd ++ [b] ∧
      ∃ new : List Int, l'.map Prod.fst = l.map Prod.fst ++ new ∧
        ∀ i ∈ l.map Prod.fst, ∀ j ∈ new, i < j := by
  obtain ⟨init, p, rfl⟩ := eq_append_getLast h.ne_nil
  have hids := h.ids
  rw [List.length_append, List.length_singleton, List.range_succ, List.map_append,
    List.map_append] at hids
  obtain ⟨hinit, hp⟩ := List.append_inj hids (by simp)
  simp only [List.map_cons, List.map_nil, List.cons.injEq, and_true] at hp
  have hsmall : ∀ q ∈ init, q.2.length ≤ maxBlocksPerShard := fun q hq => h.small q (by simp [hq])
  have hps : p.2.length ≤ maxBlocksPerShard := h.small p (by simp)
  refine ⟨_, distribute_append init p b, ?_⟩
  simp only [rebalance, splitPass_append_of_small _ _ _ hsmall, splitPass, List.length_append,
    List.length_singleton]
  split_ifs with hq
  · have h4 : (p.2.length + 1) / 2 = 2 := by simp only [maxBlocksPerShard] at hq hps; omega
    have hL : Increasing (init ++ [(p.1, (p.2 ++ [b]).take 2),
        (((init.length + 1 : Nat) : Int), (p.2 ++ [b]).drop 2)]) := by
      simpa [Increasing, hinit, hp, List.range_succ] using increasing_range (init.length + 2)
    rw [h4, sortById_of_increasing (by simpa using hL)]
    refine ⟨⟨?_, ?_, by simp⟩, ?_, [((init.length + 1 : Nat) : Int)], ?_, ?_⟩
    · simp [hinit, hp, List.range_succ]
    · simp only [List.mem_append, List.mem_cons, List.mem_singleton, List.not_mem_nil, or_false]
      rintro q (hq | rfl | rfl)
      · exact hsmall q hq
      all_goals simp only [List.length_take, List.length_drop, List.length_append,
        List.length_singleton, maxBlocksPerShard] at hq hps ⊢; omega
    · simp [← List.append_assoc]
    · simp [hinit, hp]
    · simp only [List.map_append, hinit, List.map_cons, hp, List.map_nil, List.mem_append,
        List.mem_map, List.mem_range, List.mem_singleton]
      rintro i (⟨k, hk, rfl⟩ | rfl) j rfl <;> push_cast <;> omega
  · have hL : Increasing (init ++ [(p.1, p.2 ++ [b])]) := by
      simpa [Increasing, hinit, hp, List.range_succ] using increasing_range (init.length + 1)
    rw [sortById_of_increasing (by simpa using hL)]
    refine ⟨⟨?_, ?_, by simp⟩, by simp, [], by simp [hp], by simp⟩
    · simp [hinit, hp, List.range_succ]
    · simp only [List.mem_append, List.mem_singleton]
      rintro q (hq | rfl)
      · exact hsmall q hq
      · simpa using not_lt.1 hq

theorem distribute_small {l : List (Int × List Block)} (hne : l ≠ []) (b : Block)
    (h : ∀ p ∈ l, p.2.length ≤ 2 * maxBlocksPerShard)
    (hlast : ∀ p ∈ l.getLast?, p.2.length < 2 * maxBlocksPerShard) :
    ∃ l', distribute l b = some l' ∧ ∀ p ∈ l', p.2.length ≤ maxBlocksPerShard := by
  obtain ⟨init, p, rfl⟩ := eq_append_getLast hne
  refine ⟨_, distribute_append init p b, fun q hq => ?_⟩
  rw [rebalance, mem_sortById] at hq
  refine splitPass_small _ _ (fun q hq => ?_) q hq
  simp only [List.mem_append, List.mem_singleton] at hq
  rcases hq with hq | rfl
  · exact h q (by simp [hq])
  · have := hlast p (by simp)
    simp only [List.length_append, List.length_singleton]
    omega

/-! ### Merging -/

private theorem mergePass_sublist (t : Int) : ∀ l : List (Int × List Block),
    ((mergePass t l).map Prod.fst).Sublist (l.map Prod.fst)
  | [] => List.Sublist.slnil
  | [_] => List.Sublist.refl _
  | p :: q :: rest => by
    unfold mergePass
    split_ifs
    · simpa using ((mergePass_sublist t rest).cons q.1).cons₂ p.1
    · simpa using (mergePass_sublist t (q :: rest)).cons₂ p.1

private theorem flatMap_mergePass (t : Int) : ∀ l : List (Int × List Block),
    (mergePass t l).flatMap Prod.snd = l.flatMap Prod.snd
  | [] => rfl
  | [_] => rfl
  | p :: q :: rest => by
    unfold mergePass
    split_ifs <;> simp [flatMap_mergePass t rest, flatMap_mergePass t (q :: rest)]

/-- The number of pairs a `MergeShards(t)` pass merges. -/
def mergeCount (t : Int) : List (Int × List Block) → Nat
  | [] => 0
  | [_] => 0
  | p :: q :: rest => if (p.2.length : Int) < t then mergeCount t rest + 1 else mergeCount t (q :: rest)

private theorem length_mergePass_add (t : Int) : ∀ l : List (Int × List Block),
    (mergePass t l).length + mergeCount t l = l.length
  | [] => rfl
  | [_] => rfl
  | p :: q :: rest => by
    have h₁ := length_mergePass_add t rest
    have h₂ := length_mergePass_add t (q :: rest)
    unfold mergePass mergeCount
    split_ifs <;> simp only [List.length_cons] at h₁ h₂ ⊢ <;> omega

private theorem two_mul_mergeCount_le (t : Int) : ∀ l : List (Int × List Block), 2 * mergeCount t l ≤ l.length
  | [] => Nat.zero_le _
  | [_] => Nat.zero_le _
  | p :: q :: rest => by
    have h₁ := two_mul_mergeCount_le t rest
    have h₂ := two_mul_mergeCount_le t (q :: rest)
    unfold mergeCount
    split_ifs <;> simp only [List.length_cons] at h₁ h₂ ⊢ <;> omega

theorem length_merge (t : Int) (l : List (Int × List Block)) :
    (merge t l).length + mergeCount t l = l.length ∧ (l.length + 1) / 2 ≤ (merge t l).length := by
  have h₁ := length_mergePass_add t l
  have h₂ := two_mul_mergeCount_le t l
  rw [merge, length_sortById]
  omega

private theorem mergePass_ne_nil (t : Int) {l : List (Int × List Block)} (h : l ≠ []) : mergePass t l ≠ [] := by
  match l, h with
  | [_], _ => simp [mergePass]
  | _ :: _ :: _, _ => unfold mergePass; split_ifs <;> simp

private theorem merge_of_increasing {l : List (Int × List Block)} (h : Increasing l) (t : Int) :
    merge t l = mergePass t l ∧ Increasing (mergePass t l) :=
  have hm : Increasing (mergePass t l) := h.sublist (mergePass_sublist t l)
  ⟨sortById_of_increasing hm, hm⟩

/-! ### Runs -/

theorem run_distributes (bs : List Block) : ∀ l, Tidy l →
    ∃ l', run (bs.map .distribute) l = some l' ∧ Tidy l' ∧ l'.flatMap Prod.snd = l.flatMap Prod.snd ++ bs := by
  induction bs with
  | nil => exact fun l h => ⟨l, rfl, h, by simp⟩
  | cons b bs ih =>
    intro l h
    obtain ⟨l₁, h₁, t₁, c₁, -⟩ := distribute_tidy h b
    obtain ⟨l', h', t', c'⟩ := ih l₁ t₁
    exact ⟨l', by simp [run, step, h₁, h'], t', by simp [c', c₁]⟩

theorem run_merges (ts : List Int) : ∀ l, Increasing l →
    ∃ l', run (ts.map .merge) l = some l' ∧ Increasing l' ∧ l'.flatMap Prod.snd = l.flatMap Prod.snd := by
  induction ts with
  | nil => exact fun l h => ⟨l, rfl, h, rfl⟩
  | cons t ts ih =>
    intro l h
    obtain ⟨hm, hi⟩ := merge_of_increasing h t
    obtain ⟨l', h', i', c'⟩ := ih _ hi
    exact ⟨l', by simp [run, step, hm, h'], i', by rw [c', flatMap_mergePass]⟩

/-! ### Conservation -/

private theorem flatMap_rebalance_perm (l : List (Int × List Block)) :
    ((rebalance l).flatMap Prod.snd).Perm (l.flatMap Prod.snd) :=
  ((perm_sortById _).flatMap_right _).trans (.of_eq (flatMap_splitPass _ l))

private theorem flatMap_merge_perm (t : Int) (l : List (Int × List Block)) :
    ((merge t l).flatMap Prod.snd).Perm (l.flatMap Prod.snd) :=
  ((perm_sortById _).flatMap_right _).trans (.of_eq (flatMap_mergePass t l))

private theorem step_perm {op : Op} {l l' : List (Int × List Block)} (h : step op l = some l') :
    (l'.flatMap Prod.snd).Perm (l.flatMap Prod.snd ++ op.block?.toList) := by
  cases op with
  | distribute b =>
    obtain ⟨init, p, rfl⟩ := eq_append_getLast (l := l) (by rintro rfl; cases h)
    rw [step, distribute_append, Option.some_inj] at h
    subst h
    exact (flatMap_rebalance_perm _).trans (by simp [Op.block?])
  | merge t =>
    rw [step, Option.some_inj] at h
    subst h
    simpa [Op.block?] using flatMap_merge_perm t l

theorem run_perm (ops : List Op) : ∀ {l l' : List (Int × List Block)}, run ops l = some l' →
    (l'.flatMap Prod.snd).Perm (l.flatMap Prod.snd ++ ops.filterMap Op.block?) := by
  induction ops with
  | nil => intro l l' h; cases h; simp
  | cons op ops ih =>
    intro l l' h
    obtain ⟨l₁, h₁, h'⟩ := Option.bind_eq_some.1 h
    refine (ih h').trans (((step_perm h₁).append_right _).trans (.of_eq ?_))
    cases op <;> simp [Op.block?]

private theorem step_ne_nil {op : Op} {l l' : List (Int × List Block)} (hne : l ≠ []) (h : step op l = some l') :
    l' ≠ [] := by
  cases op with
  | distribute b =>
    obtain ⟨init, p, rfl⟩ := eq_append_getLast hne
    rw [step, distribute_append, Option.some_inj] at h
    exact h ▸ sortById_ne_nil (splitPass_ne_nil _ (by simp))
  | merge t =>
    rw [step, Option.some_inj] at h
    exact h ▸ sortById_ne_nil (mergePass_ne_nil t hne)

private theorem exists_step (op : Op) {l : List (Int × List Block)} (hne : l ≠ []) : ∃ l', step op l = some l' := by
  cases op with
  | distribute b =>
    obtain ⟨init, p, rfl⟩ := eq_append_getLast hne
    exact ⟨_, distribute_append init p b⟩
  | merge t => exact ⟨_, rfl⟩

theorem exists_run (ops : List Op) :
    ∀ {l : List (Int × List Block)}, l ≠ [] → ∃ l', run ops l = some l' ∧ l' ≠ [] := by
  induction ops with
  | nil => exact fun hne => ⟨_, rfl, hne⟩
  | cons op ops ih =>
    intro l hne
    obtain ⟨l₁, h₁⟩ := exists_step op hne
    obtain ⟨l', h', hne'⟩ := ih (step_ne_nil hne h₁)
    exact ⟨l', by rw [run, h₁, Option.some_bind, h'], hne'⟩

theorem run_ne_nil (ops : List Op) : ∀ {l l' : List (Int × List Block)}, l ≠ [] → run ops l = some l' → l' ≠ [] := by
  induction ops with
  | nil => intro l l' hne h; cases h; exact hne
  | cons op ops ih =>
    intro l l' hne h
    obtain ⟨l₁, h₁, h'⟩ := Option.bind_eq_some.1 h
    exact ih (step_ne_nil hne h₁) h'

end Layout

end ShardedLedger.Sharding
