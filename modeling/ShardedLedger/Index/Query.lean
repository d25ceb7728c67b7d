import ShardedLedger.Index.Insert

/-! `FindShard` and `GetAllShards` read the abstract tree of a well-formed index: the pointer loops
compute `Tree.find` and `Tree.toList`. With `insertAll_spec` the index refines a stably sorted
list of the inserted shards. -/

namespace ShardedLedger.Index
variable {α : Type} (key : α → Int)

/-- Search in a binary search tree, as `FindShard`'s loop reads it. -/
def Tree.find (id : Int) : Tree α → Option α
  | .nil => none
  | .node _ l _ y r => if id = key y then some y else if id < key y then Tree.find id l else Tree.find id r

private theorem findFrom_eq (t : RBTree α) (id : Int) (T : Tree α) :
    ∀ (p fuel : Nat), Rep t.nodes p T → T.addrs.length < fuel →
      RBTree.findFrom key t id fuel T.ptr = T.find key id := by
  induction T with
  | nil =>
    intro p fuel _ hf
    obtain ⟨k, rfl⟩ : ∃ k, fuel = k + 1 := ⟨fuel - 1, by simp at hf; omega⟩
    simp [RBTree.findFrom, Tree.find]
  | node c l a y r ihl ihr =>
    intro p fuel ⟨ha, hn, hl, hr⟩ hf
    obtain ⟨k, rfl⟩ : ∃ k, fuel = k + 1 := ⟨fuel - 1, by simp at hf; omega⟩
    simp only [Tree.addrs_node, List.length_append, List.length_cons] at hf
    simp only [RBTree.findFrom, Tree.ptr_node, ha, if_false, hn, Tree.find]
    rw [ihl a k hl (by omega), ihr a k hr (by omega)]

private theorem inOrderTraversal_eq (t : RBTree α) (T : Tree α) :
    ∀ (p fuel : Nat), Rep t.nodes p T → T.addrs.length < fuel →
      RBTree.inOrderTraversal t fuel T.ptr = T.toList := by
  induction T with
  | nil =>
    intro p fuel _ hf
    cases fuel <;> simp [RBTree.inOrderTraversal]
  | node c l a y r ihl ihr =>
    intro p fuel ⟨ha, hn, hl, hr⟩ hf
    obtain ⟨k, rfl⟩ : ∃ k, fuel = k + 1 := ⟨fuel - 1, by simp at hf; omega⟩
    simp only [Tree.addrs_node, List.length_append, List.length_cons] at hf
    simp [RBTree.inOrderTraversal, ha, hn, ihl a k hl (by omega), ihr a k hr (by omega)]

theorem Tree.find_spec (id : Int) (T : Tree α) (hT : Ordered key T) :
    (∀ s, T.find key id = some s → key s = id ∧ s ∈ T.toList) ∧
      (T.find key id = none ↔ ∀ s ∈ T.toList, key s ≠ id) := by
  induction T with
  | nil => simp [Tree.find]
  | node c l a y r ihl ihr =>
    obtain ⟨hl, hr, ol, or⟩ := hT
    obtain ⟨sl, nl⟩ := ihl ol
    obtain ⟨sr, nr⟩ := ihr or
    by_cases he : id = key y
    · simpa [Tree.find, he] using ⟨y, by simp⟩
    by_cases hlt : id < key y
    · refine ⟨fun s hs => ?_, ?_⟩
      · simp only [Tree.find, he, hlt, if_false, if_true] at hs
        obtain ⟨h1, h2⟩ := sl s hs
        exact ⟨h1, by simp [h2]⟩
      · simp only [Tree.find, he, hlt, if_false, if_true, nl, Tree.toList_node, List.mem_append,
          List.mem_cons]
        refine ⟨fun h s hs => ?_, fun h s hs => h s (.inl hs)⟩
        rcases hs with hs | rfl | hs
        exacts [h s hs, Ne.symm he, fun h' => by have := hr s hs; omega]
    · refine ⟨fun s hs => ?_, ?_⟩
      · simp only [Tree.find, he, hlt, if_false] at hs
        obtain ⟨h1, h2⟩ := sr s hs
        exact ⟨h1, by simp [h2]⟩
      · simp only [Tree.find, he, hlt, if_false, nr, Tree.toList_node, List.mem_append,
          List.mem_cons]
        refine ⟨fun h s hs => ?_, fun h s hs => h s (.inr (.inr hs))⟩
        rcases hs with hs | rfl | hs
        exacts [fun h' => by have := hl s hs; omega, Ne.symm he, h s hs]

theorem mem_foldl_orderedInsert (s : α) (xs l : List α) :
    s ∈ xs.foldl (fun l x => l.orderedInsert (fun a b => key a < key b) x) l ↔ s ∈ l ∨ s ∈ xs := by
  induction xs generalizing l with
  | nil => simp
  | cons x xs ih => simp [ih, List.mem_orderedInsert, or_assoc, or_left_comm]

theorem WellFormed.getAllShards {t : RBTree α} {T : Tree α} (W : WellFormed key t T) :
    RBTree.getAllShards t = T.toList := by
  rw [RBTree.getAllShards, W.holds.ctx]
  exact inOrderTraversal_eq t T 0 _ W.holds.rep (by simpa using W.holds.addrs_length_lt W.next_pos)

theorem WellFormed.findShard {t : RBTree α} {T : Tree α} (W : WellFormed key t T) (id : Int) :
    RBTree.findShard key t id = T.find key id := by
  rw [RBTree.findShard, W.holds.ctx]
  exact findFrom_eq key t id T 0 _ W.holds.rep (by simpa using W.holds.addrs_length_lt W.next_pos)

theorem getAllShards_insertAll (xs : List α) :
    RBTree.getAllShards (RBTree.insertAll key newRBTree xs) =
      xs.foldl (fun l x => l.orderedInsert (fun a b => key a < key b) x) [] := by
  obtain ⟨T, W, hT⟩ := insertAll_spec key xs (wellFormed_new key)
  exact (W.getAllShards key).trans hT

/-- After any `Insert` sequence the index behaves as a stably sorted list of the shards. -/
theorem insertAll_refines_sortedList (xs : List α) (id : Int) :
    RBTree.getAllShards (RBTree.insertAll key newRBTree xs) =
        xs.foldl (fun l x => l.orderedInsert (fun a b => key a < key b) x) [] ∧
      (∀ s, RBTree.findShard key (RBTree.insertAll key newRBTree xs) id = some s →
        key s = id ∧ s ∈ xs) ∧
      (RBTree.findShard key (RBTree.insertAll key newRBTree xs) id = none ↔ ∀ s ∈ xs, key s ≠ id) := by
  obtain ⟨T, W, hT⟩ := insertAll_spec key xs (wellFormed_new key)
  have hmem : ∀ s, s ∈ T.toList ↔ s ∈ xs := fun s => by
    simp [hT, mem_foldl_orderedInsert]
  obtain ⟨h1, h2⟩ := Tree.find_spec key id T W.ordered
  refine ⟨W.getAllShards key |>.trans hT, fun s hs => ?_, ?_⟩
  · rw [W.findShard key] at hs
    exact ⟨(h1 s hs).1, (hmem s).1 (h1 s hs).2⟩
  · rw [W.findShard key, h2]
    exact forall_congr' fun s => by rw [hmem]

end ShardedLedger.Index
