import ShardedLedger.Index.FixInsert

/-! The BST half of `Insert` on the zipper: its descent builds the path `insPath`, and the new red
node hangs at the leaf that path reaches. With `fixInsert_spec` this gives one `Insert` and then
any sequence of them: the index stays a red-black tree whose in-order list is the stable sorted
insertion of the shards. -/

namespace ShardedLedger.Index
variable {α : Type} (key : α → Int)

/-- The path `Insert`'s descent walks from the root of a tree to a `Nil` leaf, pushed on `fs`. -/
def insPath (x : α) : Tree α → List (Frame α) → List (Frame α)
  | .nil, fs => fs
  | .node c l a y r, fs =>
    if key x < key y then insPath x l (⟨.left, c, a, y, r⟩ :: fs)
    else insPath x r (⟨.right, c, a, y, l⟩ :: fs)

/-- The tree with `u` in place of the leaf the descent for `x` reaches. -/
def Tree.ins : Tree α → α → Tree α → Tree α
  | .nil, _, u => u
  | .node c l a y r, x, u =>
    if key x < key y then .node c (Tree.ins l x u) a y r else .node c l a y (Tree.ins r x u)

/-- Ordered by ID as the source's comparisons use it: left keys `≤`, right keys `≥`. -/
def Ordered : Tree α → Prop
  | .nil => True
  | .node _ l _ y r => (∀ z ∈ l.toList, key z ≤ key y) ∧ (∀ z ∈ r.toList, key y ≤ key z) ∧
      Ordered l ∧ Ordered r

private theorem plug_insPath (x : α) (u : Tree α) (T : Tree α) (fs : List (Frame α)) :
    plug (insPath key x T fs) u = plug fs (T.ins key x u) := by
  induction T generalizing fs with
  | nil => rfl
  | node c l a y r ihl ihr =>
    simp only [insPath, Tree.ins]
    split_ifs
    · simp [*, Frame.fill, Tree.mk]
    · simp [*, Frame.fill, Tree.mk]

private theorem insPath_dir (x : α) (T : Tree α) (fs : List (Frame α)) :
    ∀ f ∈ insPath key x T fs, f ∈ fs ∨ f.dir = if key x < key f.val then .left else .right := by
  induction T generalizing fs with
  | nil => exact fun f hf => .inl hf
  | node c l a y r ihl ihr =>
    intro f hf
    simp only [insPath] at hf
    split_ifs at hf with h
    · rcases ihl _ f hf with hf | hf
      · rcases List.mem_cons.1 hf with rfl | hf
        · simp [h]
        · exact .inl hf
      · exact .inr hf
    · rcases ihr _ f hf with hf | hf
      · rcases List.mem_cons.1 hf with rfl | hf
        · simp [h]
        · exact .inl hf
      · exact .inr hf

private theorem Tree.ins_nil (T : Tree α) (x : α) : T.ins key x .nil = T := by
  induction T with
  | nil => rfl
  | node c l a y r ihl ihr => simp only [Tree.ins]; split_ifs <;> simp [*]

private theorem descend_spec (t : RBTree α) (x : α) (T : Tree α) :
    ∀ (fs : List (Frame α)) (fuel : Nat), Rep t.nodes (upAddr fs) T → T.addrs.length < fuel →
      RBTree.descend key t x fuel T.ptr (upAddr fs) = upAddr (insPath key x T fs) := by
  induction T with
  | nil =>
    intro fs fuel _ hf
    obtain ⟨k, rfl⟩ : ∃ k, fuel = k + 1 := ⟨fuel - 1, by simp [Tree.addrs] at hf; omega⟩
    simp [RBTree.descend, Tree.ptr, insPath]
  | node c l a y r ihl ihr =>
    intro fs fuel ⟨ha, hn, hl, hr⟩ hf
    obtain ⟨k, rfl⟩ : ∃ k, fuel = k + 1 := ⟨fuel - 1, by simp [Tree.addrs] at hf; omega⟩
    simp only [Tree.addrs, List.length_append, List.length_cons] at hf
    simp only [RBTree.descend, Tree.ptr, ha, if_false, hn, RBTree.goesLeft, insPath]
    by_cases h : key x < key y
    · simpa [h] using ihl (⟨.left, c, a, y, r⟩ :: fs) k hl (by omega)
    · simpa [h] using ihr (⟨.right, c, a, y, l⟩ :: fs) k hr (by omega)

/-- The store with `x` in a fresh red node at `next`, not linked yet. -/
def RBTree.grow (t : RBTree α) (x : α) : RBTree α :=
  { t with nodes := Function.update t.nodes t.next ⟨some x, .red, 0, 0, 0⟩, next := t.next + 1 }

/-- The fresh node linked below the top frame of the descent's path, or made the root. -/
def RBTree.hang (t : RBTree α) (x : α) : List (Frame α) → RBTree α
  | [] => { (t.grow x).setParent t.next 0 with root := t.next }
  | f :: _ => ((t.grow x).setParent t.next f.addr).setChild f.addr f.dir t.next

private theorem holds_grow {t : RBTree α} {T : Tree α} (H : Holds t [] T) (hpos : 0 < t.next) (x : α) :
    Holds (t.grow x) [] T :=
  ⟨H.ctx, H.rep.congr fun a ha => Function.update_noteq (H.lt a (by simpa using ha)).ne _ _, H.nodup,
    fun a ha => Nat.lt_succ_of_lt (H.lt a ha),
    by simp [RBTree.grow, Function.update_noteq hpos.ne, H.sentinel]⟩

private theorem next_not_mem_insPath {t : RBTree α} {T : Tree α} (H : Holds t [] T) (x : α) :
    ∀ a ∈ ctxAddrs (insPath key x T []), a ≠ t.next := fun a ha =>
  (H.lt a (by simpa [plug_insPath, Tree.ins_nil] using
    (addrs_plug (insPath key x T []) .nil).mem_iff.2 (List.mem_append_right _ ha))).ne

private theorem bstInsert_eq {t : RBTree α} {T : Tree α} (H : Holds t [] T) (hpos : 0 < t.next) (x : α) :
    RBTree.bstInsert key t x = t.hang x (insPath key x T []) := by
  have H1 := holds_grow H hpos x
  have HP : Holds (t.grow x) (insPath key x T []) .nil :=
    Holds.focus (by rwa [plug_insPath, Tree.ins_nil])
  have hdesc : RBTree.descend key (t.grow x) x (t.next + 1) t.root 0 = upAddr (insPath key x T []) := by
    rw [show t.root = T.ptr from H.ctx]
    exact descend_spec key _ x T [] _ H1.rep
      (by simpa [RBTree.grow] using H1.addrs_length_lt (by simp [RBTree.grow]))
  have hdir := insPath_dir key x T []
  have hnew := next_not_mem_insPath key H x
  have hg : (⟨Function.update t.nodes t.next ⟨some x, .red, 0, 0, 0⟩, t.next + 1, t.root⟩ : RBTree α) =
      t.grow x := rfl
  generalize insPath key x T [] = P at HP hdesc hdir hnew ⊢
  cases P with
  | nil => simp only [RBTree.bstInsert, hg, hdesc, upAddr_nil, if_true]; rfl
  | cons f fs =>
    have hfz : f.addr ≠ t.next := hnew _ (by simp)
    have hcell : t.nodes f.addr = f.cell 0 (upAddr fs) := by
      simpa [RBTree.grow, Function.update_noteq hfz] using HP.nodes_up
    have hdf : f.dir = if key x < key f.val then .left else .right :=
      (hdir f (List.mem_cons_self _ _)).resolve_left (List.not_mem_nil _)
    simp only [RBTree.bstInsert, hg, hdesc, upAddr_cons, if_neg HP.ctx.1, RBTree.goesLeft,
      RBTree.setParent_nodes, Function.update_noteq hfz, RBTree.hang]
    simp only [RBTree.grow, Function.update_noteq hfz, hcell, Frame.cell_shard]
    by_cases h : key x < key f.val <;> simp [h, hdf]

private theorem bstInsert_holds {t : RBTree α} {T : Tree α} (H : Holds t [] T) (hpos : 0 < t.next) (x : α) :
    Holds (RBTree.bstInsert key t x) (insPath key x T []) (.node .red .nil t.next x .nil) := by
  rw [bstInsert_eq key H hpos x]
  have HP : Holds (t.grow x) (insPath key x T []) .nil :=
    Holds.focus (by rw [plug_insPath, Tree.ins_nil]; exact holds_grow H hpos x)
  have hnew := next_not_mem_insPath key H x
  generalize insPath key x T [] = P at HP hnew ⊢
  cases P with
  | nil =>
    exact ⟨rfl, ⟨hpos.ne', by simp [RBTree.hang, RBTree.grow], trivial, trivial⟩, by simp [Tree.addrs],
      by simp [Tree.addrs, RBTree.hang, RBTree.grow],
      by simp [RBTree.hang, RBTree.grow, Function.update_noteq hpos.ne, H.sentinel]⟩
  | cons f fs =>
    have hf0 : f.addr ≠ 0 := HP.ctx.1
    have hfz : f.addr ≠ t.next := hnew _ (by simp)
    have hcell : t.nodes f.addr = f.cell 0 (upAddr fs) := by
      simpa [RBTree.grow, Function.update_noteq hfz] using HP.nodes_up
    have hnd := HP.nodup
    simp only [Tree.addrs, List.nil_append, ctxAddrs_cons, List.nodup_cons, List.mem_append,
      not_or] at hnd
    have hag : ∀ a ∈ f.sib.addrs ++ ctxAddrs fs, (t.hang x (f :: fs)).nodes a = (t.grow x).nodes a := by
      intro a ha
      have h1 : a ≠ f.addr := by rintro rfl; simp_all
      have h2 : a ≠ t.next := hnew a (by simp_all)
      simp [RBTree.hang, Function.update_noteq h1, Function.update_noteq h2]
    refine ⟨⟨hf0, ?_, HP.ctx.2.2.1.congr fun a ha => hag a (by simp [ha]),
      HP.ctx.2.2.2.congr fun a ha => hag a (by simp [ha])⟩, ⟨hpos.ne', ?_, trivial, trivial⟩, ?_, ?_, ?_⟩
    · simp [RBTree.hang, RBTree.grow, hcell, Function.update_noteq hfz, Tree.ptr, Frame.cell_setChild]
    · simp [RBTree.hang, RBTree.grow, Function.update_noteq hfz.symm, Tree.ptr]
    · simp only [Tree.addrs, List.nil_append, List.singleton_append, List.nodup_cons]
      exact ⟨fun h => hnew _ h rfl, by simpa using HP.nodup⟩
    · intro a ha
      simp only [Tree.addrs, List.nil_append, List.singleton_append, List.mem_cons] at ha
      rcases ha with rfl | ha
      · simp [RBTree.hang, RBTree.grow]
      · simpa [RBTree.hang, RBTree.grow] using HP.lt a (by simpa using ha)
    · simp [RBTree.hang, RBTree.grow, Function.update_noteq hf0.symm, Function.update_noteq hpos.ne,
        H.sentinel]

private theorem insPath_congr {key' : α → Int} (x : α) (T : Tree α) (fs : List (Frame α))
    (hk : ∀ y ∈ x :: T.toList, key y = key' y) : insPath key x T fs = insPath key' x T fs := by
  induction T generalizing fs with
  | nil => rfl
  | node c l a y r ihl ihr =>
    simp only [Tree.toList_node, List.mem_cons, List.mem_append] at hk
    simp only [insPath, hk x (.inl rfl), hk y (.inr (.inr (.inl rfl)))]
    split_ifs
    · exact ihl _ fun z hz => hk z ((List.mem_cons.1 hz).imp id fun h => .inl h)
    · exact ihr _ fun z hz => hk z ((List.mem_cons.1 hz).imp id fun h => .inr (.inr h))

private theorem orderedInsert_append_of_lt {x y : α} (h : key x < key y) (l m : List α) :
    (l ++ y :: m).orderedInsert (fun a b => key a < key b) x =
      l.orderedInsert (fun a b => key a < key b) x ++ y :: m := by
  induction l with
  | nil => simp [h]
  | cons b l ih => by_cases hb : key x < key b <;> simp [hb, ih]

theorem orderedInsert_append_of_le {x : α} (l m : List α) (h : ∀ b ∈ l, key b ≤ key x) :
    (l ++ m).orderedInsert (fun a b => key a < key b) x =
      l ++ m.orderedInsert (fun a b => key a < key b) x := by
  induction l with
  | nil => rfl
  | cons b l ih =>
    simp only [List.mem_cons, forall_eq_or_imp] at h
    simp [not_lt.2 h.1, ih h.2]

private theorem ordered_iff_sorted (T : Tree α) :
    Ordered key T ↔ T.toList.Sorted (fun a b => key a ≤ key b) := by
  induction T with
  | nil => simp [Ordered]
  | node c l a y r ihl ihr =>
    simp only [List.Sorted] at ihl ihr ⊢
    simp only [Ordered, Tree.toList_node, List.pairwise_append, List.pairwise_cons, List.mem_cons,
      forall_eq_or_imp, ihl, ihr]
    constructor
    · rintro ⟨hl, hr, sl, sr⟩
      exact ⟨sl, ⟨hr, sr⟩, fun b hb => ⟨hl b hb, fun z hz => (hl b hb).trans (hr z hz)⟩⟩
    · rintro ⟨sl, ⟨hr, sr⟩, hx⟩
      exact ⟨fun b hb => (hx b hb).1, hr, sl, sr⟩

private theorem sorted_orderedInsert (x : α) {l : List α} (hl : l.Sorted (fun a b => key a ≤ key b)) :
    (l.orderedInsert (fun a b => key a < key b) x).Sorted (fun a b => key a ≤ key b) := by
  induction l with
  | nil => simp
  | cons b l ih =>
    rw [List.sorted_cons] at hl
    by_cases hb : key x < key b
    · simp only [List.orderedInsert, hb, if_true, List.sorted_cons, List.mem_cons, forall_eq_or_imp]
      exact ⟨⟨hb.le, fun c hc => hb.le.trans (hl.1 c hc)⟩, hl⟩
    · simp only [List.orderedInsert, hb, if_false, List.sorted_cons, List.mem_orderedInsert]
      refine ⟨?_, ih hl.2⟩
      rintro c (rfl | hc)
      exacts [not_lt.1 hb, hl.1 c hc]

private theorem toList_ins (x : α) {u : Tree α} (hu : u.toList = [x]) :
    ∀ T : Tree α, Ordered key T →
      (T.ins key x u).toList = T.toList.orderedInsert (fun a b => key a < key b) x := by
  intro T
  induction T with
  | nil => simp [Tree.ins, hu]
  | node c l a y r ihl ihr =>
    rintro ⟨hl, hr, ol, or⟩
    by_cases h : key x < key y
    · simp [Tree.ins, h, ihl ol, orderedInsert_append_of_lt key h]
    · have := orderedInsert_append_of_le key (l.toList ++ [y]) r.toList (x := x) (by
        simp only [List.mem_append, List.mem_singleton]
        rintro b (hb | rfl)
        exacts [(hl b hb).trans (not_lt.1 h), not_lt.1 h])
      simp only [List.append_assoc, List.singleton_append] at this
      simp [Tree.ins, h, ihr or, this]

/-- The shard index between two `Insert` calls: a represented red-black tree ordered by ID. -/
structure WellFormed (t : RBTree α) (T : Tree α) : Prop where
  holds : Holds t [] T
  next_pos : 0 < t.next
  ordered : Ordered key T
  balanced : ∃ n, Balanced T .black n

theorem wellFormed_new : WellFormed key (newRBTree : RBTree α) .nil :=
  ⟨⟨rfl, trivial, List.nodup_nil, fun _ h => absurd h (List.not_mem_nil _), rfl⟩, Nat.one_pos,
    trivial, ⟨0, .nil⟩⟩

private theorem insert_spec {t : RBTree α} {T : Tree α} (W : WellFormed key t T) (x : α) :
    (RBTree.fixLoop (RBTree.bstInsert key t x).next (RBTree.bstInsert key t x) t.next).isSome ∧
      ∃ T', WellFormed key (RBTree.insert key t x) T' ∧
        T'.toList = T.toList.orderedInsert (fun a b => key a < key b) x := by
  have HA := bstInsert_holds key W.holds W.next_pos x
  obtain ⟨m, hm⟩ := W.balanced
  obtain ⟨c, n, hnil, hp⟩ := PathOK.of_balanced_plug (s := .nil)
    (by rwa [plug_insPath, Tree.ins_nil] : Balanced (plug (insPath key x T []) .nil) .black m)
  cases hnil
  obtain ⟨hsome, T', m', HT', hb', hl'⟩ := fixInsert_spec HA (.red .nil .nil) hp.viol
  have hL : T'.toList = T.toList.orderedInsert (fun a b => key a < key b) x := by
    rw [hl', plug_insPath, plug_nil]
    exact toList_ins key x (by simp) T W.ordered
  have hT' : T' ≠ .nil := by
    rintro rfl
    have hx : x ∈ T.toList.orderedInsert (fun a b => key a < key b) x := by simp
    simp [← hL] at hx
  refine ⟨hsome, T', ⟨HT', ?_, ?_, ⟨m', hb'⟩⟩, hL⟩
  · exact Nat.zero_lt_of_lt (HT'.lt _ (by simpa using Tree.ptr_mem hT'))
  · rw [ordered_iff_sorted, hL]
    exact sorted_orderedInsert key x ((ordered_iff_sorted key T).1 W.ordered)

private theorem insert_congr {key' : α → Int} {t : RBTree α} {T : Tree α} (W : WellFormed key t T) (x : α)
    (hk : ∀ y ∈ x :: T.toList, key y = key' y) : RBTree.insert key t x = RBTree.insert key' t x := by
  rw [RBTree.insert, RBTree.insert, bstInsert_eq key W.holds W.next_pos,
    bstInsert_eq key' W.holds W.next_pos, insPath_congr key x T [] hk]

private theorem ordered_congr {key' : α → Int} {T : Tree α} (hk : ∀ y ∈ T.toList, key y = key' y)
    (h : Ordered key T) : Ordered key' T := by
  rw [ordered_iff_sorted] at h ⊢
  exact h.imp_of_mem fun ha hb hab => by rwa [← hk _ ha, ← hk _ hb]

theorem WellFormed.congr {key' : α → Int} {t : RBTree α} {T : Tree α} (W : WellFormed key t T)
    (hk : ∀ y ∈ T.toList, key y = key' y) : WellFormed key' t T :=
  ⟨W.holds, W.next_pos, ordered_congr key hk W.ordered, W.balanced⟩

theorem insertAll_spec (xs : List α) : ∀ {t : RBTree α} {T : Tree α}, WellFormed key t T →
    ∃ T', WellFormed key (RBTree.insertAll key t xs) T' ∧
      T'.toList = xs.foldl (fun l x => l.orderedInsert (fun a b => key a < key b) x) T.toList := by
  induction xs with
  | nil => exact fun W => ⟨_, W, rfl⟩
  | cons x xs ih =>
    intro t T W
    obtain ⟨-, T₁, W₁, h₁⟩ := insert_spec key W x
    obtain ⟨T', W', h'⟩ := ih W₁
    exact ⟨T', W', by rw [h', h₁]; rfl⟩

private theorem insertAll_congr {key' : α → Int} (xs : List α) : ∀ {t : RBTree α} {T : Tree α},
    WellFormed key t T → (∀ y ∈ T.toList ++ xs, key y = key' y) →
      RBTree.insertAll key t xs = RBTree.insertAll key' t xs := by
  induction xs with
  | nil => exact fun _ _ => rfl
  | cons x xs ih =>
    intro t T W hk
    obtain ⟨-, T₁, W₁, h₁⟩ := insert_spec key W x
    have hx : ∀ y ∈ x :: T.toList, key y = key' y := fun y hy =>
      hk y (by simp only [List.mem_cons, List.mem_append] at hy ⊢; tauto)
    show RBTree.insertAll key (RBTree.insert key t x) xs = RBTree.insertAll key' (RBTree.insert key' t x) xs
    rw [← insert_congr key W x hx]
    refine ih W₁ fun y hy => hk y ?_
    simp only [h₁, List.mem_append, List.mem_orderedInsert, List.mem_cons] at hy ⊢
    tauto

theorem insertAll_new_congr {key' : α → Int} {xs : List α} (hk : ∀ y ∈ xs, key y = key' y) :
    RBTree.insertAll key newRBTree xs = RBTree.insertAll key' newRBTree xs :=
  insertAll_congr key xs (wellFormed_new key) (by simpa using hk)

/-- After any sequence of `Insert` calls on `NewRBTree`, the next `Insert`'s `fixInsert` loop
ends, and the nodes form a binary tree rooted at `Root`, with parent pointers that agree with the
child pointers, a black `Nil`, keys in order, and the red-black properties. -/
theorem insertAll_redBlack (xs : List α) (x : α) :
    (RBTree.fixLoop (RBTree.bstInsert key (RBTree.insertAll key newRBTree xs) x).next
        (RBTree.bstInsert key (RBTree.insertAll key newRBTree xs) x)
        (RBTree.insertAll key newRBTree xs).next).isSome ∧
      ∃ T n, Rep (RBTree.insertAll key newRBTree xs).nodes 0 T ∧
        T.ptr = (RBTree.insertAll key newRBTree xs).root ∧ T.addrs.Nodup ∧
        ((RBTree.insertAll key newRBTree xs).nodes 0).color = .black ∧ Ordered key T ∧
        Balanced T .black n := by
  obtain ⟨T, W, -⟩ := insertAll_spec key xs (wellFormed_new key)
  obtain ⟨n, hn⟩ := W.balanced
  exact ⟨(insert_spec key W x).1, T, n, W.holds.rep, W.holds.ctx.symm, by simpa using W.holds.nodup,
    by simp [W.holds.sentinel, nilNode], W.ordered, hn⟩

end ShardedLedger.Index
