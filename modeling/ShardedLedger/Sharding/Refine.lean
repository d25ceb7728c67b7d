import ShardedLedger.Sharding.Layout

/-! The pointer-level manager refines the list level. A manager's index is the insertion of
distinct allocated pointers; a pass reads each shard before it writes it, and writes only the
shard it reads and the one it allocates, so what `GetAllShards` shows after a call is what the
list-level call computes from what it showed before. -/

namespace ShardedLedger.Sharding
open ShardedLedger.Core ShardedLedger.Index

/-- What `GetAllShards` shows of the shard at `r`. -/
def Store.view (s : Store) (r : Nat) : Int × List Block := ((s.get r).id, (s.get r).blocks)

/-- The list-level state of a manager. -/
def ShardManager.layout (sm : ShardManager) : List (Int × List Block) :=
  (RBTree.getAllShards sm.shards).map sm.store.view

/-- The index is the insertion of the distinct allocated pointers `xs`, in this order. -/
structure Indexes (sm : ShardManager) (xs : List Nat) : Prop where
  shards_eq : sm.shards = RBTree.insertAll sm.store.id newRBTree xs
  nodup : xs.Nodup
  lt : ∀ r ∈ xs, r < sm.store.next

private theorem map_orderedInsert {β γ : Type} (f : β → γ) {r : β → β → Prop} {s : γ → γ → Prop}
    [DecidableRel r] [DecidableRel s] (h : ∀ a b, r a b ↔ s (f a) (f b)) (x : β) :
    ∀ l : List β, (l.orderedInsert r x).map f = (l.map f).orderedInsert s (f x)
  | [] => rfl
  | b :: l => by
    by_cases hb : r x b
    · simp [List.orderedInsert, hb, (h x b).1 hb]
    · simp [List.orderedInsert, hb, mt (h x b).2 hb, map_orderedInsert f h x l]

private theorem map_foldl_orderedInsert {β γ : Type} (f : β → γ) {r : β → β → Prop} {s : γ → γ → Prop}
    [DecidableRel r] [DecidableRel s] (h : ∀ a b, r a b ↔ s (f a) (f b)) :
    ∀ xs l : List β, (xs.foldl (fun l x => l.orderedInsert r x) l).map f =
      (xs.map f).foldl (fun l x => l.orderedInsert s x) (l.map f)
  | [], _ => rfl
  | x :: xs, l => by
    rw [List.foldl_cons, map_foldl_orderedInsert f h xs, map_orderedInsert f h]
    rfl

namespace Indexes
variable {sm : ShardManager} {xs : List Nat}

theorem getAllShards (H : Indexes sm xs) :
    RBTree.getAllShards sm.shards = xs.foldl (fun l x => l.orderedInsert (fun a b => sm.store.id a < sm.store.id b) x) [] := by
  rw [H.shards_eq, getAllShards_insertAll]

private theorem layout_eq (H : Indexes sm xs) : sm.layout = Layout.sortById (xs.map sm.store.view) := by
  rw [ShardManager.layout, H.getAllShards,
    map_foldl_orderedInsert sm.store.view (r := fun a b => sm.store.id a < sm.store.id b)
      (s := fun a b => a.1 < b.1) (fun _ _ => Iff.rfl)]
  rfl

private theorem nodup_getAllShards (H : Indexes sm xs) : (RBTree.getAllShards sm.shards).Nodup := by
  rw [H.getAllShards]
  exact (perm_foldl_orderedInsert _ xs []).nodup_iff.2 H.nodup

private theorem lt_of_mem_getAllShards (H : Indexes sm xs) {r : Nat} (hr : r ∈ RBTree.getAllShards sm.shards) :
    r < sm.store.next := by
  rw [H.getAllShards] at hr
  exact H.lt r (by simpa using (perm_foldl_orderedInsert _ xs []).mem_iff.1 hr)

theorem findShard (H : Indexes sm xs) (id : Int) :
    (∀ r, sm.findShard id = some r → sm.store.id r = id ∧ r ∈ RBTree.getAllShards sm.shards) ∧
      (sm.findShard id = none ↔ ∀ r ∈ RBTree.getAllShards sm.shards, sm.store.id r ≠ id) := by
  obtain ⟨T, W, -⟩ := insertAll_spec sm.store.id xs (wellFormed_new sm.store.id)
  rw [ShardManager.findShard, H.shards_eq, W.findShard, W.getAllShards]
  exact Tree.find_spec _ id T W.ordered

private theorem restore (H : Indexes sm xs) {s : Store} (hnext : sm.store.next ≤ s.next)
    (hid : ∀ y ∈ xs, s.id y = sm.store.id y) : Indexes ⟨s, sm.shards⟩ xs :=
  ⟨H.shards_eq.trans (insertAll_new_congr _ fun y hy => (hid y hy).symm), H.nodup,
    fun r hr => (H.lt r hr).trans_le hnext⟩

theorem insert (H : Indexes sm xs) {r : Nat} (hr : r < sm.store.next) (hn : r ∉ xs) :
    Indexes ⟨sm.store, sm.shards.insert sm.store.id r⟩ (xs ++ [r]) :=
  ⟨by simp [H.shards_eq, RBTree.insertAll, List.foldl_append], List.nodup_append.2
    ⟨H.nodup, List.nodup_singleton r, by simpa using fun h => hn h⟩,
    fun a ha => by rcases List.mem_append.1 ha with ha | ha <;> simp_all [H.lt a]⟩

end Indexes

section
variable (sha : Bytes → Bytes)

private theorem foldl_addBlock (bs : List Block) : ∀ s : Shard,
    (bs.foldl (Shard.addBlock sha) s).id = s.id ∧
      (bs.foldl (Shard.addBlock sha) s).blocks = s.blocks ++ bs := by
  induction bs with
  | nil => simp
  | cons b bs ih => intro s; simp [ih]

private theorem addBlocks_eq (bs : List Block) : ∀ (s : Store) (r : Nat),
    addBlocks sha s r bs = s.set r (bs.foldl (Shard.addBlock sha) (s.get r)) := by
  induction bs with
  | nil => simp [addBlocks]
  | cons b bs ih =>
    intro s r
    rw [addBlocks, List.foldl_cons, ← addBlocks, ih]
    simp

private theorem splitOne_spec {sm : ShardManager} {ys : List Nat} {r : Nat} (c : Int) (H : Indexes sm ys)
    (hr : r < sm.store.next) (hry : r ∉ ys) :
    ∃ zs, Indexes (splitOne sha sm r c).1 (ys ++ zs) ∧
      zs.map (splitOne sha sm r c).1.store.view = Layout.splitPass c [sm.store.view r] ∧
      (splitOne sha sm r c).2 =
        (if maxBlocksPerShard < (sm.store.get r).blocks.length then c + 1 else c) ∧
      (∀ z ∈ zs, z = r ∨ sm.store.next ≤ z) ∧ sm.store.next ≤ (splitOne sha sm r c).1.store.next ∧
      ∀ a < sm.store.next, a ≠ r → (splitOne sha sm r c).1.store.get a = sm.store.get a := by
  by_cases hs : maxBlocksPerShard < (sm.store.get r).blocks.length
  · set shard := sm.store.get r with hshard
    set X := sm.store.set r (shard.setBlocks sha (shard.blocks.take (shard.blocks.length / 2)))
    set R := (shard.blocks.drop (shard.blocks.length / 2)).foldl (Shard.addBlock sha) (newShard c)
    have hX : X.id = sm.store.id := Store.id_set rfl
    have hstep : splitOne sha sm r c =
        (⟨X.alloc R, (sm.shards.insert X.id r).insert (X.alloc R).id sm.store.next⟩, c + 1) := by
      simp only [splitOne, ← hshard, if_pos hs, addBlocks_eq, Store.get_alloc, Function.update_same]
      simp [X]
    have H1 := (H.restore (s := X) le_rfl fun y _ => by rw [hX]).insert hr hry
    have H2 := (H1.restore (s := X.alloc R) (by simp [X]) fun y hy =>
      Store.id_alloc_of_lt _ _ (H1.lt y hy)).insert (r := X.next) (by simp)
      fun h => lt_irrefl _ (H1.lt _ h)
    have hR := foldl_addBlock sha (shard.blocks.drop (shard.blocks.length / 2)) (newShard c)
    simp only [newShard, List.nil_append] at hR
    rw [hstep]
    refine ⟨[r, sm.store.next], by simpa using H2, ?_, by simp [hs], ?_, by simp [X], ?_⟩
    · simp [Layout.splitPass, hs, Store.view, X, R, hr.ne, hR, newShard, ← hshard]
    · simp
    · intro a ha har
      simp [X, ha.ne, har]
  · refine ⟨[r], ?_, ?_, ?_, by simp, ?_, fun a _ _ => ?_⟩ <;>
      simp only [splitOne, if_neg hs]
    · exact H.insert hr hry
    · simp [Layout.splitPass, hs, Store.view]
    · exact le_rfl

private theorem splitAll_spec (rs : List Nat) : ∀ (sm : ShardManager) (ys : List Nat) (c : Int),
    Indexes sm ys → (ys ++ rs).Nodup → (∀ r ∈ rs, r < sm.store.next) →
    ∃ zs, Indexes (splitAll sha rs sm c) (ys ++ zs) ∧
      zs.map (splitAll sha rs sm c).store.view = Layout.splitPass c (rs.map sm.store.view) ∧
      ∀ a < sm.store.next, a ∉ rs → (splitAll sha rs sm c).store.get a = sm.store.get a := by
  induction rs with
  | nil => exact fun sm ys c H _ _ => ⟨[], by simpa using H, rfl, fun _ _ _ => rfl⟩
  | cons r rs ih =>
    intro sm ys c H hnd hlt
    obtain ⟨hys, hrs, hdis⟩ := List.nodup_append.1 hnd
    obtain ⟨hr_rs, hrs⟩ := List.nodup_cons.1 hrs
    have hr := hlt r (List.mem_cons_self _ _)
    have hlt' : ∀ a ∈ rs, a < sm.store.next := fun a ha => hlt a (List.mem_cons_of_mem _ ha)
    obtain ⟨zs₁, H₁, hv₁, hc₁, hz₁, hn₁, hf₁⟩ :=
      splitOne_spec sha c H hr fun h => hdis h (List.mem_cons_self _ _)
    have hz_rs : ∀ z ∈ zs₁, z ∉ rs := fun z hz hzr => (hz₁ z hz).elim (fun h => hr_rs (h ▸ hzr))
      fun h => (lt_irrefl _ ((hlt' z hzr).trans_le h))
    have hnd₂ : (ys ++ zs₁ ++ rs).Nodup := List.nodup_append.2 ⟨H₁.nodup, hrs, fun a ha har =>
      (List.mem_append.1 ha).elim (fun h => hdis h (List.mem_cons_of_mem _ har)) (hz_rs a · har)⟩
    obtain ⟨zs₂, H₂, hv₂, hf₂⟩ :=
      ih _ (ys ++ zs₁) _ H₁ hnd₂ fun a ha => (hlt' a ha).trans_le hn₁
    simp only [splitAll]
    refine ⟨zs₁ ++ zs₂, by simpa using H₂, ?_, fun a ha har => ?_⟩
    · rw [List.map_append, hv₂, List.map_cons, Layout.splitPass_cons, ← hv₁]
      congr 1
      · exact List.map_congr_left fun z hz => by
          simp only [Store.view, hf₂ z (H₁.lt z (List.mem_append_right _ hz)) (hz_rs z hz)]
      · exact congr (congrArg _ hc₁) (List.map_congr_left fun a ha => by
          simp only [Store.view, hf₁ a (hlt' a ha) fun h => hr_rs (h ▸ ha)])
    · rw [hf₂ a (ha.trans_le hn₁) fun h => har (List.mem_cons_of_mem _ h),
        hf₁ a ha fun h => har (h ▸ List.mem_cons_self _ _)]

private theorem mergeAll_spec (t : Int) : ∀ (rs : List Nat) (sm : ShardManager) (ys : List Nat),
    Indexes sm ys → (ys ++ rs).Nodup → (∀ r ∈ rs, r < sm.store.next) →
    ∃ zs, Indexes (mergeAll sha t rs sm) (ys ++ zs) ∧
      zs.map (mergeAll sha t rs sm).store.view = Layout.mergePass t (rs.map sm.store.view) ∧
      ∀ a < sm.store.next, a ∉ rs → (mergeAll sha t rs sm).store.get a = sm.store.get a
  | [], sm, ys, H, _, _ => ⟨[], by simpa using H, rfl, fun _ _ _ => rfl⟩
  | [r], sm, ys, H, hnd, hlt =>
    ⟨[r], H.insert (hlt r (List.mem_singleton_self r)) fun h =>
      (List.nodup_append.1 hnd).2.2 h (List.mem_singleton_self r), by simp [mergeAll, Layout.mergePass],
      fun _ _ _ => rfl⟩
  | r :: r' :: rest, sm, ys, H, hnd, hlt => by
    obtain ⟨hys, hrs, hdis⟩ := List.nodup_append.1 hnd
    have hlt' : ∀ a ∈ rest, a < sm.store.next := fun a ha => hlt a (by simp [ha])
    by_cases hs : ((sm.store.get r).blocks.length : Int) < t
    · set M := (newShard (sm.store.get r).id).setBlocks sha
        ((sm.store.get r).blocks ++ (sm.store.get r').blocks)
      have hstep : mergeAll sha t (r :: r' :: rest) sm =
          mergeAll sha t rest ⟨sm.store.alloc M, sm.shards.insert (sm.store.alloc M).id sm.store.next⟩ := by
        simp only [mergeAll, if_pos hs, Store.get_alloc, Function.update_same]
        simp [M]
      have H₁ : Indexes ⟨sm.store.alloc M, sm.shards.insert (sm.store.alloc M).id sm.store.next⟩
          (ys ++ [sm.store.next]) := (H.restore (s := sm.store.alloc M) (by simp) fun y hy =>
        Store.id_alloc_of_lt _ _ (H.lt y hy)).insert (r := sm.store.next) (by simp)
        fun h => lt_irrefl _ (H.lt _ h)
      have hn_rest : sm.store.next ∉ rest := fun h => lt_irrefl _ (hlt' _ h)
      have hnd₁ : (ys ++ [sm.store.next] ++ rest).Nodup := List.nodup_append.2 ⟨H₁.nodup,
        (List.nodup_cons.1 (List.nodup_cons.1 hrs).2).2, fun a ha har => (List.mem_append.1 ha).elim
          (fun h => hdis h (by simp [har])) fun h => hn_rest (by simpa [List.mem_singleton.1 h] using har)⟩
      obtain ⟨zs, H₂, hv, hf⟩ := mergeAll_spec t rest _ _ H₁ hnd₁ fun a ha => (hlt' a ha).trans (by simp)
      rw [hstep]
      refine ⟨sm.store.next :: zs, by simpa using H₂, ?_, fun a ha har => ?_⟩
      · rw [List.map_cons, hv]
        simp only [Store.view, hf _ (by simp) hn_rest, List.map_cons, Layout.mergePass, hs, if_true]
        simp only [M, newShard, Store.get_alloc, Function.update_same, Shard.id_setBlocks,
          Shard.blocks_setBlocks]
        exact congrArg _ (congrArg _ (List.map_congr_left fun a ha => by
          simp [Store.view, Function.update_noteq (hlt' a ha).ne]))
      · rw [hf a (ha.trans (by simp)) fun h => har (by simp [h])]
        simp [ha.ne]
    · have hr : r < sm.store.next := hlt r (List.mem_cons_self _ _)
      have hry : r ∉ ys := fun h => hdis h (List.mem_cons_self _ _)
      have H₁ := H.insert hr hry
      have hnd₁ : (ys ++ [r] ++ (r' :: rest)).Nodup := by simpa using hnd
      obtain ⟨zs, H₂, hv, hf⟩ := mergeAll_spec t (r' :: rest) _ _ H₁ hnd₁
        fun a ha => hlt a (List.mem_cons_of_mem _ ha)
      have hstep : mergeAll sha t (r :: r' :: rest) sm =
          mergeAll sha t (r' :: rest) ⟨sm.store, sm.shards.insert sm.store.id r⟩ := by
        simp only [mergeAll, if_neg hs]
      rw [hstep]
      refine ⟨r :: zs, by simpa using H₂, ?_, fun a ha har => hf a ha fun h => har (List.mem_cons_of_mem _ h)⟩
      rw [List.map_cons, hv]
      simp only [Store.view, hf r hr (List.nodup_cons.1 hrs).1, List.map_cons, Layout.mergePass, if_neg hs]

theorem rebalanceShards_spec {sm : ShardManager} {xs : List Nat} (H : Indexes sm xs) :
    ∃ zs, Indexes (rebalanceShards sha sm) zs ∧
      (rebalanceShards sha sm).layout = Layout.rebalance sm.layout := by
  obtain ⟨zs, H', hv, -⟩ := splitAll_spec sha (RBTree.getAllShards sm.shards) ⟨sm.store, newRBTree⟩ []
    _ ⟨rfl, List.nodup_nil, by simp⟩ (by simpa using H.nodup_getAllShards)
    fun r hr => H.lt_of_mem_getAllShards hr
  rw [List.nil_append] at H'
  refine ⟨zs, H', ?_⟩
  rw [rebalanceShards, H'.layout_eq, hv]
  simp [Layout.rebalance, ShardManager.layout]

theorem mergeShards_spec {sm : ShardManager} {xs : List Nat} (H : Indexes sm xs) (t : Int) :
    ∃ zs, Indexes (mergeShards sha t sm) zs ∧ (mergeShards sha t sm).layout = Layout.merge t sm.layout := by
  obtain ⟨zs, H', hv, -⟩ := mergeAll_spec sha t (RBTree.getAllShards sm.shards) ⟨sm.store, newRBTree⟩ []
    ⟨rfl, List.nodup_nil, by simp⟩ (by simpa using H.nodup_getAllShards)
    fun r hr => H.lt_of_mem_getAllShards hr
  rw [List.nil_append] at H'
  exact ⟨zs, H', by rw [mergeShards, H'.layout_eq, hv]; rfl⟩

theorem distributeBlock_spec {sm : ShardManager} {xs : List Nat} (H : Indexes sm xs) (b : Block) :
    (distributeBlock sha sm b).map ShardManager.layout = Layout.distribute sm.layout b ∧
      ∀ sm' ∈ distributeBlock sha sm b, ∃ zs, Indexes sm' zs := by
  rcases List.eq_nil_or_concat (RBTree.getAllShards sm.shards) with h | ⟨init, r, h⟩
  · simp [distributeBlock, Layout.distribute, ShardManager.layout, h]
  · rw [List.concat_eq_append] at h
    have hnd := H.nodup_getAllShards
    rw [h, List.nodup_append] at hnd
    have hri : r ∉ init := fun hr => hnd.2.2 hr (List.mem_singleton_self r)
    set sm₁ : ShardManager := ⟨sm.store.set r ((sm.store.get r).addBlock sha b), sm.shards⟩
    have H₁ : Indexes sm₁ xs := H.restore le_rfl fun y _ => by rw [Store.id_set (Shard.id_addBlock sha _ b)]
    obtain ⟨zs, H', hl⟩ := rebalanceShards_spec sha H₁
    have hd : distributeBlock sha sm b = some (rebalanceShards sha sm₁) := by
      simp [distributeBlock, h, sm₁]
    refine ⟨?_, fun sm' h' => ⟨zs, by rw [hd, Option.mem_def, Option.some_inj] at h'; exact h' ▸ H'⟩⟩
    rw [hd, Option.map_some', hl, ShardManager.layout, ShardManager.layout, h, List.map_append,
      List.map_append, List.map_singleton, List.map_singleton, Layout.distribute_append]
    congr 3
    · exact List.map_congr_left fun a ha => by
        simp [Store.view, sm₁, Function.update_noteq (fun e : a = r => hri (e ▸ ha))]
    · simp [Store.view, sm₁]

theorem run_refines (ops : List Op) : ∀ {sm : ShardManager} {xs : List Nat}, Indexes sm xs →
    (run sha ops sm).map ShardManager.layout = Layout.run ops sm.layout ∧
      ∀ sm' ∈ run sha ops sm, ∃ zs, Indexes sm' zs := by
  induction ops with
  | nil => exact fun H => ⟨rfl, fun sm' h => ⟨_, (Option.some_inj.1 h) ▸ H⟩⟩
  | cons op ops ih =>
    intro sm xs H
    cases op with
    | distribute b =>
      obtain ⟨h₁, h₂⟩ := distributeBlock_spec sha H b
      cases hd : distributeBlock sha sm b with
      | none =>
        rw [hd] at h₁
        simp [run, Op.apply, Layout.run, Layout.step, hd, ← h₁]
      | some sm₁ =>
        obtain ⟨zs, H₁⟩ := h₂ sm₁ hd
        rw [hd] at h₁
        simp only [run, Op.apply, hd, Option.some_bind, Layout.run, Layout.step, ← h₁, Option.map_some']
        exact ih H₁
    | merge t =>
      obtain ⟨zs, H₁, hl⟩ := mergeShards_spec sha H t
      simp only [run, Op.apply, Option.some_bind, Layout.run, Layout.step, ← hl]
      exact ih H₁

theorem indexes_newShardManager : Indexes newShardManager [0] :=
  ⟨rfl, List.nodup_singleton 0, by simp [newShardManager, emptyStore]⟩

private theorem layout_newShardManager : newShardManager.layout = [(0, [])] := by
  rw [indexes_newShardManager.layout_eq]
  rfl

theorem run_newShardManager (ops : List Op) :
    (run sha ops newShardManager).map ShardManager.layout = Layout.run ops [(0, [])] := by
  rw [← layout_newShardManager]
  exact (run_refines sha ops indexes_newShardManager).1

end

end ShardedLedger.Sharding
