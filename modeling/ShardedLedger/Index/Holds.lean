import ShardedLedger.Index.Rep

/-! The invariant `fixInsert` keeps while its `node` pointer moves, as a zipper: the store holds
the path and the subtree below it, over distinct allocated addresses, with the sentinel intact.
Each write of the loop body (a recolouring or a rotation) keeps it. -/

namespace ShardedLedger.Index
variable {α : Type}

/-- The store `t` holds the tree `plug fs s`, focused at `s`. -/
structure Holds (t : RBTree α) (fs : List (Frame α)) (s : Tree α) : Prop where
  ctx : RepCtx t.nodes t.root fs s.ptr
  rep : Rep t.nodes (upAddr fs) s
  nodup : (s.addrs ++ ctxAddrs fs).Nodup
  lt : ∀ a ∈ s.addrs ++ ctxAddrs fs, a < t.next
  sentinel : t.nodes 0 = nilNode

private theorem perm_addrs_up (f : Frame α) (fs : List (Frame α)) (s : Tree α) :
    ((f.fill s).addrs ++ ctxAddrs fs).Perm (s.addrs ++ ctxAddrs (f :: fs)) := by
  simpa [ctxAddrs, List.append_assoc] using (addrs_fill f s).append_right (ctxAddrs fs)

theorem Holds.up {t : RBTree α} {f : Frame α} {fs : List (Frame α)} {s : Tree α} :
    Holds t (f :: fs) s ↔ Holds t fs (f.fill s) := by
  have hp := perm_addrs_up f fs s
  constructor
  · rintro ⟨⟨ha, hcell, hs, hrest⟩, hr, hnd, hlt, h0⟩
    exact ⟨by simpa [Frame.fill] using hrest, (rep_fill f s _).2 ⟨ha, hcell, hr, hs⟩,
      hp.nodup_iff.2 hnd, fun a ha => hlt a (hp.mem_iff.1 ha), h0⟩
  · rintro ⟨hc, hr, hnd, hlt, h0⟩
    obtain ⟨ha, hcell, hs, hs'⟩ := (rep_fill f s _).1 hr
    exact ⟨⟨ha, hcell, hs', by simpa [Frame.fill] using hc⟩, hs, hp.nodup_iff.1 hnd,
      fun a ha => hlt a (hp.mem_iff.2 ha), h0⟩

theorem Holds.unfocus {t : RBTree α} {fs : List (Frame α)} {s : Tree α} (H : Holds t fs s) :
    Holds t [] (plug fs s) := by
  induction fs generalizing s with
  | nil => exact H
  | cons f fs ih => exact ih (Holds.up.1 H)

theorem Holds.focus {t : RBTree α} {fs : List (Frame α)} {s : Tree α}
    (H : Holds t [] (plug fs s)) : Holds t fs s := by
  induction fs generalizing s with
  | nil => exact H
  | cons f fs ih => exact Holds.up.2 (ih H)

theorem Holds.ne_root {t : RBTree α} {f : Frame α} {fs : List (Frame α)} {s : Tree α}
    (H : Holds t (f :: fs) s) (hs : s ≠ .nil) : s.ptr ≠ t.root := by
  have hroot : t.root = (plug (f :: fs) s).ptr := H.unfocus.ctx
  rw [hroot]
  intro h
  have hm := ptr_plug_mem f fs s
  rw [← h, List.mem_cons] at hm
  refine List.disjoint_of_nodup_append H.nodup (Tree.ptr_mem hs) ?_
  rcases hm with hm | hm <;> simp [hm]

private theorem length_le_ctxAddrs (fs : List (Frame α)) : fs.length ≤ (ctxAddrs fs).length := by
  induction fs with
  | nil => rfl
  | cons f fs ih => simp only [List.length_cons, ctxAddrs_cons, List.length_append]; omega

theorem Holds.addrs_length_lt {t : RBTree α} {fs : List (Frame α)} {s : Tree α} (H : Holds t fs s)
    (hpos : 0 < t.next) : (s.addrs ++ ctxAddrs fs).length < t.next := by
  have hne : ∀ a ∈ s.addrs ++ ctxAddrs fs, a ≠ 0 := by
    simpa [or_imp, forall_and] using And.intro H.rep.ne_zero H.ctx.ne_zero
  have hsub := (List.subperm_of_subset H.nodup
    (show _ ⊆ List.range' 1 (t.next - 1) from fun a ha => by
      have := H.lt a ha
      have := hne a ha
      simp only [List.mem_range'_1]; omega)).length_le
  simp only [List.length_range'] at hsub
  omega

theorem Holds.length_lt {t : RBTree α} {fs : List (Frame α)} {s : Tree α} (H : Holds t fs s)
    (hs : s ≠ .nil) : fs.length < t.next := by
  have hm := Tree.ptr_mem hs
  have hlt := H.addrs_length_lt (Nat.zero_lt_of_lt (H.lt _ (List.mem_append_left _ hm)))
  have hpos := List.length_pos_of_mem hm
  have := length_le_ctxAddrs fs
  simp only [List.length_append] at hlt
  omega

private theorem update_agrees {h : Nat → RBNode α} {w : Nat} {v : RBNode α} {l : List Nat} (hw : w ∉ l) :
    ∀ a ∈ l, Function.update h w v a = h a :=
  fun _ hb => Function.update_noteq (by rintro rfl; exact hw hb) _ _

private theorem ne_of_eq_zero_or_mem {p a : Nat} {l : List Nat} (hp : p = 0 ∨ p ∈ l) (ha : a ≠ 0)
    (hl : a ∉ l) : p ≠ a := by
  rintro rfl
  exact hp.elim ha hl

private theorem Holds.nodes_node {t : RBTree α} {fs : List (Frame α)} {c : Color} {l r : Tree α} {a : Nat}
    {x : α} (H : Holds t fs (.node c l a x r)) : t.nodes a = ⟨some x, c, l.ptr, r.ptr, upAddr fs⟩ :=
  H.rep.2.1

theorem Holds.nodes_up {t : RBTree α} {f : Frame α} {fs : List (Frame α)} {s : Tree α}
    (H : Holds t (f :: fs) s) : t.nodes f.addr = f.cell s.ptr (upAddr fs) :=
  H.ctx.2.1

theorem Holds.color_ptr {t : RBTree α} {fs : List (Frame α)} {s : Tree α} (H : Holds t fs s) :
    (t.nodes s.ptr).color = s.color := by
  cases s with
  | nil => simp [Tree.ptr, Tree.color, H.sentinel, nilNode]
  | node c l a x r => simp [Tree.ptr, Tree.color, H.nodes_node]

theorem Holds.parent_ptr {t : RBTree α} {fs : List (Frame α)} {s : Tree α} (H : Holds t fs s)
    (hs : s ≠ .nil) : (t.nodes s.ptr).parent = upAddr fs := by
  cases s with
  | nil => exact absurd rfl hs
  | node c l a x r => simp [Tree.ptr, H.nodes_node]

theorem Holds.ptr_ne_sib {t : RBTree α} {f : Frame α} {fs : List (Frame α)} {s : Tree α}
    (H : Holds t (f :: fs) s) (hs : s ≠ .nil) : s.ptr ≠ f.sib.ptr := by
  have hm := Tree.ptr_mem hs
  refine (ne_of_eq_zero_or_mem f.sib.ptr_eq_zero_or_mem (H.rep.ne_zero _ hm) fun h => ?_).symm
  exact List.disjoint_of_nodup_append H.nodup hm (by simp [h])

theorem Holds.recolor {t : RBTree α} {fs : List (Frame α)} {s : Tree α} (H : Holds t fs s)
    (hs : s ≠ .nil) (c : Color) {a : Nat} (ha : s.ptr = a) : Holds (t.setColor a c) fs (s.setColor c) := by
  subst ha
  obtain ⟨hc, hr, hnd, hlt, h0⟩ := H
  cases s with
  | nil => exact absurd rfl hs
  | node c0 l a x r =>
    obtain ⟨ha, hcell, hl, hr'⟩ := hr
    have hna : a ∉ l.addrs ++ r.addrs ++ ctxAddrs fs := by
      have h : (l.addrs ++ a :: (r.addrs ++ ctxAddrs fs)).Nodup := by simpa using hnd
      simpa using (List.nodup_cons.1 (List.perm_middle.nodup_iff.1 h)).1
    simp only [List.mem_append, not_or] at hna
    refine ⟨hc.congr (update_agrees hna.2), ⟨ha, by simp [hcell, Tree.setColor, Tree.ptr],
      hl.congr (update_agrees hna.1.1), hr'.congr (update_agrees hna.1.2)⟩, by simpa using hnd,
      by simpa using hlt, ?_⟩
    simpa [Tree.ptr, Function.update_noteq (Ne.symm ha)] using h0

private theorem rotate_spec {d : Dir} {t : RBTree α} {x y b P : Nat}
    (hy : (t.nodes x).child d.opp = y) (hb : (t.nodes y).child d = b) (hP : (t.nodes x).parent = P)
    (hyx : y ≠ x) (hbx : b ≠ x) (hby : b ≠ y) (hPx : P ≠ x) (hPy : P ≠ y) (hPb : P ≠ 0 → P ≠ b) :
    (RBTree.rotate d t x).root = (if P = 0 then y else t.root) ∧
    (RBTree.rotate d t x).next = t.next ∧
    (RBTree.rotate d t x).nodes x = { (t.nodes x).setChild d.opp b with parent := y } ∧
    (RBTree.rotate d t x).nodes y = ({ t.nodes y with parent := P }).setChild d x ∧
    (b ≠ 0 → (RBTree.rotate d t x).nodes b = { t.nodes b with parent := x }) ∧
    (P ≠ 0 → (RBTree.rotate d t x).nodes P =
      (t.nodes P).setChild (if x = (t.nodes P).child d then d else d.opp) y) ∧
    ∀ a, a ≠ x → a ≠ y → (b ≠ 0 → a ≠ b) → (P ≠ 0 → a ≠ P) →
      (RBTree.rotate d t x).nodes a = t.nodes a := by
  have hxy := hyx.symm; have hxb := hbx.symm; have hyb := hby.symm; have hxP := hPx.symm
  have hyP := hPy.symm; have hbP : P ≠ 0 → b ≠ P := fun h => (hPb h).symm
  rcases eq_or_ne b 0 with rfl | hb0 <;> rcases eq_or_ne P 0 with rfl | hP0 <;>
    simp only [*, RBTree.rotate, RBTree.setChild, RBTree.setParent, RBTree.modify,
      Function.update_noteq, Function.update_same, RBNode.parent_setChild, ne_eq,
      not_true_eq_false, not_false_eq_true, if_true, if_false] <;>
    (try split_ifs with hc <;> clear hc) <;>
    refine ⟨?_, ?_, ?_, ?_, fun hb0 => ?_, fun hP0 => ?_, fun a hax hay hab haP => ?_⟩ <;>
    first
    | contradiction
    | simp only [*, Function.update_noteq, Function.update_same, RBNode.parent_setChild, ne_eq,
        not_true_eq_false, not_false_eq_true, if_true, if_false]

private theorem perm_addrs_rotate (d : Dir) (cx cy : Color) (A B C : Tree α) (ax ay : Nat) (vx vy : α) :
    (Tree.mk d cx A ax vx (Tree.mk d cy B ay vy C)).addrs.Perm
      (ax :: ay :: (B.addrs ++ (A.addrs ++ C.addrs))) := by
  refine (Tree.perm_addrs_mk _ _ _ _ _ _).trans (List.Perm.cons ax ?_)
  refine ((List.Perm.refl _).append (Tree.perm_addrs_mk d cy B ay vy C)).trans ?_
  exact List.perm_middle.trans ((List.perm_append_comm_assoc _ _ _).cons ay)

private theorem perm_addrs_rotated (d : Dir) (cx cy : Color) (A B C : Tree α) (ax ay : Nat) (vx vy : α) :
    (Tree.mk d cy (Tree.mk d cx A ax vx B) ay vy C).addrs.Perm
      (ax :: ay :: (B.addrs ++ (A.addrs ++ C.addrs))) := by
  refine (Tree.perm_addrs_mk _ _ _ _ _ _).trans ?_
  refine (((Tree.perm_addrs_mk d cx A ax vx B).append_right C.addrs).cons ay).trans ?_
  simpa using (List.perm_append_comm_assoc A.addrs B.addrs C.addrs).swap' ax ay

theorem Holds.rotate {t : RBTree α} {fs : List (Frame α)} {d : Dir} {cx cy : Color}
    {A B C : Tree α} {ax ay : Nat} {vx vy : α}
    (H : Holds t fs (Tree.mk d cx A ax vx (Tree.mk d cy B ay vy C))) :
    Holds (RBTree.rotate d t ax) fs (Tree.mk d cy (Tree.mk d cx A ax vx B) ay vy C) := by
  obtain ⟨hc, hr, hnd, hlt, h0⟩ := H
  obtain ⟨hax, hcx, hA, hY⟩ := (rep_fill ⟨d, cx, ax, vx, Tree.mk d cy B ay vy C⟩ A _).1 hr
  obtain ⟨hay, hcy, hB, hC⟩ := (rep_fill ⟨d, cy, ay, vy, C⟩ B _).1 hY
  have hp := (perm_addrs_rotate d cx cy A B C ax ay vx vy).append_right (ctxAddrs fs)
  have hp' := (perm_addrs_rotated d cx cy A B C ax ay vx vy).append_right (ctxAddrs fs)
  have hnd' := hp.nodup_iff.1 hnd
  simp only [List.cons_append, List.nodup_cons, List.mem_cons, List.mem_append, not_or,
    List.append_assoc, List.nodup_append] at hnd'
  obtain ⟨⟨hxy, hxB, hxA, hxC, hxF⟩, ⟨hyB, hyA, hyC, hyF⟩, hBn, ⟨hAn, ⟨hCn, hFn, hCF⟩, hAF⟩, hBF⟩ :=
    hnd'
  have hF0 := hc.ne_zero
  have hbP : upAddr fs ≠ 0 → upAddr fs ≠ B.ptr := fun hP0 =>
    (ne_of_eq_zero_or_mem (Tree.ptr_eq_zero_or_mem B) hP0
      fun h => hBF h (by simp [(upAddr_eq_zero_or_mem fs).resolve_left hP0])).symm
  obtain ⟨hroot, hnext, hx', hy', hb', hP', hfr⟩ := @rotate_spec _ d t ax ay B.ptr (upAddr fs)
    (by simp [hcx, Frame.cell]) (by simp [hcy, Frame.cell]) (by simp [hcx]) (Ne.symm hxy)
    (ne_of_eq_zero_or_mem (Tree.ptr_eq_zero_or_mem B) hax hxB)
    (ne_of_eq_zero_or_mem (Tree.ptr_eq_zero_or_mem B) hay hyB)
    (ne_of_eq_zero_or_mem (upAddr_eq_zero_or_mem fs) hax hxF)
    (ne_of_eq_zero_or_mem (upAddr_eq_zero_or_mem fs) hay hyF) hbP
  have hfr' : ∀ a ∈ A.addrs ++ C.addrs ++ ctxAddrs fs, a ≠ upAddr fs →
      (RBTree.rotate d t ax).nodes a = t.nodes a := by
    intro a ha haP
    simp only [List.mem_append] at ha
    refine hfr a ?_ ?_ (fun hb0 hab => ?_) (fun _ => haP)
    · rintro rfl; exact ha.elim (·.elim hxA hxC) hxF
    · rintro rfl; exact ha.elim (·.elim hyA hyC) hyF
    · subst hab
      exact hBF ((Tree.ptr_eq_zero_or_mem B).resolve_left hb0) (by simpa [or_assoc] using ha)
  have hnP : ∀ a ∈ A.addrs ++ C.addrs, a ≠ upAddr fs := by
    intro a ha
    have ha0 : a ≠ 0 := (List.mem_append.1 ha).elim (hA.ne_zero a) (hC.ne_zero a)
    have haF : a ∉ ctxAddrs fs := (List.mem_append.1 ha).elim
      (fun h hF => hAF h (List.mem_append_right _ hF)) (fun h => hCF h)
    exact (ne_of_eq_zero_or_mem (upAddr_eq_zero_or_mem fs) ha0 haF).symm
  refine ⟨?_, ?_, hp'.nodup_iff.2 (hp.nodup_iff.1 hnd),
    fun a ha => hnext ▸ hlt a (hp.mem_iff.2 (hp'.mem_iff.1 ha)), ?_⟩
  · cases fs with
    | nil => simpa [upAddr, RepCtx] using hroot
    | cons f fs =>
      obtain ⟨hfa, hfc, hfs, hfc'⟩ := hc
      simp only [ctxAddrs_cons, List.nodup_cons, List.mem_append, not_or, List.nodup_append] at hFn
      refine ⟨hfa, ?_, hfs.congr fun a ha => hfr' a (by simp [ha])
        (by rintro rfl; exact hFn.1.1 ha), ?_⟩
      · rw [show upAddr (f :: fs) = f.addr from rfl] at hP'
        simp only [Tree.ptr_mk]
        rw [hP' hfa, hfc, Tree.ptr_mk, Frame.relink_dir f d ax _ ?_, Frame.cell_setChild]
        exact (ne_of_eq_zero_or_mem (Tree.ptr_eq_zero_or_mem f.sib) hax
          fun h => hxF (by simp [h])).symm
      · rw [show (RBTree.rotate d t ax).root = t.root by simpa [upAddr, hfa] using hroot]
        exact hfc'.congr fun a ha => hfr' a (by simp [ha]) (by rintro rfl; exact hFn.1.2 ha)
  · refine (rep_fill ⟨d, cy, ay, vy, C⟩ (Tree.mk d cx A ax vx B) _).2
      ⟨hay, ?_, (rep_fill ⟨d, cx, ax, vx, B⟩ A _).2 ⟨hax, ?_, ?_, ?_⟩, ?_⟩
    · rw [hy', hcy, Frame.cell_reparent, Tree.ptr_mk]
      exact Frame.cell_setChild _ _ _ _
    · rw [hx', hcx, show ∀ p r, (Frame.cell ⟨d, cx, ax, vx, Tree.mk d cy B ay vy C⟩ p r).setChild d.opp B.ptr
          = Frame.cell ⟨d, cx, ax, vx, B⟩ p r from fun p r => Frame.cell_setSib _ p r B, Frame.cell_reparent]
    · exact hA.congr fun a ha => hfr' a (by simp [ha]) (hnP a (by simp [ha]))
    · refine hB.reparent hb' (fun a ha hab => hfr a (by rintro rfl; exact hxB ha)
        (by rintro rfl; exact hyB ha) (fun _ => hab) fun hP0 haP => hBF ha ?_) hBn
      simp [haP, (upAddr_eq_zero_or_mem fs).resolve_left hP0]
    · exact hC.congr fun a ha => hfr' a (by simp [ha]) (hnP a (by simp [ha]))
  · rw [hfr 0 (Ne.symm hax) (Ne.symm hay) (fun hb => Ne.symm hb) (fun hP => Ne.symm hP)]
    exact h0

end ShardedLedger.Index
