import ShardedLedger.Index.Tree

/-! How writes to the node store act on the represented tree: a store that agrees on a tree's
addresses represents it too, and a path rebuilds the whole tree from its hole. -/

namespace ShardedLedger.Index
variable {α : Type} {h h' : Nat → RBNode α}

theorem Rep.congr {par : Nat} {t : Tree α} (ht : Rep h par t) (hag : ∀ a ∈ t.addrs, h' a = h a) :
    Rep h' par t := by
  induction t generalizing par with
  | nil => trivial
  | node c l a x r ihl ihr =>
    obtain ⟨ha, hc, hl, hr⟩ := ht
    simp only [Tree.addrs, List.mem_append, List.mem_cons] at hag
    exact ⟨ha, (hag a (by simp)).trans hc, ihl hl fun b hb => hag b (.inl hb),
      ihr hr fun b hb => hag b (.inr (.inr hb))⟩

theorem Rep.reparent {p q : Nat} {t : Tree α} (ht : Rep h p t)
    (hroot : t.ptr ≠ 0 → h' t.ptr = { h t.ptr with parent := q })
    (hag : ∀ a ∈ t.addrs, a ≠ t.ptr → h' a = h a) (hnd : t.addrs.Nodup) : Rep h' q t := by
  cases t with
  | nil => trivial
  | node c l a x r =>
    obtain ⟨ha, hc, hl, hr⟩ := ht
    simp only [Tree.ptr_node, Tree.addrs_node, List.nodup_append, List.nodup_cons] at hroot hag hnd
    refine ⟨ha, by rw [hroot ha, hc], hl.congr fun b hb => hag b (by simp [hb]) ?_,
      hr.congr fun b hb => hag b (by simp [hb]) ?_⟩
    · rintro rfl; exact hnd.2.2 hb (List.mem_cons_self _ _)
    · rintro rfl; exact hnd.2.1.1 hb

theorem Rep.ne_zero {par : Nat} {t : Tree α} (ht : Rep h par t) : ∀ a ∈ t.addrs, a ≠ 0 := by
  induction t generalizing par with
  | nil => simp [Tree.addrs]
  | node c l a x r ihl ihr =>
    obtain ⟨ha, -, hl, hr⟩ := ht
    simp only [Tree.addrs, List.mem_append, List.mem_cons]
    rintro b (hb | rfl | hb)
    exacts [ihl hl b hb, ha, ihr hr b hb]

theorem rep_fill (f : Frame α) (t : Tree α) (par : Nat) :
    Rep h par (f.fill t) ↔
      f.addr ≠ 0 ∧ h f.addr = f.cell t.ptr par ∧ Rep h f.addr t ∧ Rep h f.addr f.sib := by
  cases f with
  | mk d c a x s =>
    cases d
    · rfl
    · simp only [Frame.fill, Tree.mk, Rep, Frame.cell, RBNode.setChild, Dir.opp]
      tauto

theorem RepCtx.congr {root p : Nat} {fs : List (Frame α)} (hc : RepCtx h root fs p)
    (hag : ∀ a ∈ ctxAddrs fs, h' a = h a) : RepCtx h' root fs p := by
  induction fs generalizing p with
  | nil => exact hc
  | cons f fs ih =>
    obtain ⟨ha, hcell, hs, hrest⟩ := hc
    simp only [ctxAddrs, List.flatMap_cons, Frame.addrs, List.mem_cons, List.mem_append] at hag
    exact ⟨ha, (hag _ (.inl (.inl rfl))).trans hcell, hs.congr fun b hb => hag b (.inl (.inr hb)),
      ih hrest fun b hb => hag b (.inr hb)⟩

theorem RepCtx.ne_zero {root p : Nat} {fs : List (Frame α)} (hc : RepCtx h root fs p) :
    ∀ a ∈ ctxAddrs fs, a ≠ 0 := by
  induction fs generalizing p with
  | nil => simp [ctxAddrs]
  | cons f fs ih =>
    obtain ⟨ha, -, hs, hrest⟩ := hc
    simp only [ctxAddrs, List.flatMap_cons, Frame.addrs, List.mem_cons, List.mem_append]
    rintro b ((rfl | hb) | hb)
    exacts [ha, hs.ne_zero b hb, ih hrest b hb]

@[simp] theorem addrs_fill (f : Frame α) (t : Tree α) :
    (f.fill t).addrs.Perm (t.addrs ++ f.addrs) := by
  refine (Tree.perm_addrs_mk _ _ _ _ _ _).trans ?_
  simpa [Frame.addrs] using List.perm_middle.symm

theorem addrs_plug (fs : List (Frame α)) (t : Tree α) :
    (plug fs t).addrs.Perm (t.addrs ++ ctxAddrs fs) := by
  induction fs generalizing t with
  | nil => simp [plug, ctxAddrs]
  | cons f fs ih =>
    refine (ih _).trans ?_
    simpa [ctxAddrs, List.append_assoc] using (addrs_fill f t).append_right (ctxAddrs fs)

end ShardedLedger.Index
