import ShardedLedger.Index.Holds
import ShardedLedger.Index.Balance

/-! `fixInsert`'s loop on the zipper. Each arm of the loop body is one lemma that computes what the
code does from the invariant `Holds`; the run lemma `fixLoop_spec` then shows that the loop ends
within its fuel with a red-black tree holding the same shards in the same order. -/

namespace ShardedLedger.Index
variable {α : Type}

section
variable {t : RBTree α} {f1 f2 : Frame α} {fs : List (Frame α)} {s : Tree α} {d : Dir}

theorem Holds.fixCase3 (H : Holds t (f1 :: f2 :: fs) s) (hs : s ≠ .nil) (h1 : f1.dir = d)
    (h2 : f2.dir = d) :
    ∃ t', RBTree.fixCase3 d t s.ptr = (t', s.ptr) ∧
      Holds t' (⟨d, .black, f1.addr, f1.val, Tree.mk d .red f1.sib f2.addr f2.val f2.sib⟩ :: fs) s := by
  have H1 := Holds.up.1 H
  have hp : (t.nodes s.ptr).parent = f1.addr := H.parent_ptr hs
  have hg : (t.nodes f1.addr).parent = f2.addr := by simpa using H1.parent_ptr (Frame.fill_ne_nil _ _)
  refine ⟨RBTree.rotate d.opp ((t.setColor f1.addr .black).setColor f2.addr .red) f2.addr,
    by simp only [RBTree.fixCase3, RBTree.setColor_parent, hp, hg], ?_⟩
  have H2 := Holds.up.1 (H1.recolor (Frame.fill_ne_nil _ _) .black (Frame.ptr_fill _ _))
  have H3 := H2.recolor (Frame.fill_ne_nil _ _) .red (Frame.ptr_fill _ _)
  rcases f1 with ⟨d1, c1, p, pv, S⟩
  rcases f2 with ⟨d2, c2, g, gv, U⟩
  dsimp only at h1 h2
  subst d1 d2
  simp only [Frame.fill, Tree.setColor_mk, Tree.ptr_mk] at H3
  have H4 := Holds.rotate (d := d.opp) (by simpa only [Tree.mk_opp] using H3)
  exact Holds.up.2 (by simpa only [Frame.fill, Tree.mk_opp] using H4)

private theorem Holds.uncle_color (H : Holds t (f1 :: f2 :: fs) s) :
    (t.nodes f2.sib.ptr).color = f2.sib.color :=
  (Holds.up.2 (by rw [Frame.fill_flip]; exact Holds.up.1 (Holds.up.1 H) :
    Holds t fs ((f2.flip (f1.fill s)).fill f2.sib))).color_ptr

private theorem Holds.uncle_ptr (H : Holds t (f1 :: f2 :: fs) s) (h2 : f2.dir = d) :
    (t.nodes f2.addr).child d.opp = f2.sib.ptr := by
  rw [(Holds.up.1 H).nodes_up, ← h2, Frame.cell_child_opp]

private theorem Holds.fixStep_red (H : Holds t (f1 :: f2 :: fs) s) (hs : s ≠ .nil) (h2 : f2.dir = d)
    (hu : f2.sib.color = .red) :
    ∃ t', RBTree.fixStep d t s.ptr = (t', f2.addr) ∧
      Holds t' fs (Tree.mk d .red (Tree.mk f1.dir .black s f1.addr f1.val f1.sib) f2.addr f2.val
        (f2.sib.setColor .black)) := by
  have H1 := Holds.up.1 H
  have hp : (t.nodes s.ptr).parent = f1.addr := H.parent_ptr hs
  have hg : (t.nodes f1.addr).parent = f2.addr := by simpa using H1.parent_ptr (Frame.fill_ne_nil _ _)
  refine ⟨((t.setColor f1.addr .black).setColor f2.sib.ptr .black).setColor f2.addr .red, ?_, ?_⟩
  · simp only [RBTree.fixStep, hp, hg, H.uncle_ptr h2, H.uncle_color, hu, if_true,
      RBTree.setColor_parent]
  have K1 : Holds (t.setColor f1.addr .black) fs
      ((f2.flip ((f1.fill s).setColor .black)).fill f2.sib) := by
    rw [Frame.fill_flip]; exact Holds.up.1 (H1.recolor (Frame.fill_ne_nil _ _) .black (Frame.ptr_fill _ _))
  have hU : f2.sib ≠ .nil := by rintro h; simp [h, Tree.color] at hu
  have K2 := Holds.up.1 ((Holds.up.2 K1).recolor hU .black rfl)
  have K3 := K2.recolor (Frame.fill_ne_nil _ _) .red (Frame.ptr_fill (f2.flip _) _)
  simpa [Frame.fill, Frame.flip, Tree.mk_opp, h2] using K3

private theorem Holds.fixStep_outer (H : Holds t (f1 :: f2 :: fs) s) (hs : s ≠ .nil) (h1 : f1.dir = d)
    (h2 : f2.dir = d) (hu : f2.sib.color = .black) :
    ∃ t', RBTree.fixStep d t s.ptr = (t', s.ptr) ∧
      Holds t' (⟨d, .black, f1.addr, f1.val, Tree.mk d .red f1.sib f2.addr f2.val f2.sib⟩ :: fs) s := by
  have H1 := Holds.up.1 H
  have hp : (t.nodes s.ptr).parent = f1.addr := H.parent_ptr hs
  have hg : (t.nodes f1.addr).parent = f2.addr := by simpa using H1.parent_ptr (Frame.fill_ne_nil _ _)
  have hin : s.ptr ≠ (t.nodes f1.addr).child d.opp := by
    rw [H.nodes_up, ← h1, Frame.cell_child_opp]
    exact H.ptr_ne_sib hs
  obtain ⟨t', h3, H3⟩ := H.fixCase3 hs h1 h2
  refine ⟨t', ?_, H3⟩
  simp only [RBTree.fixStep, hp, hg, H.uncle_ptr h2, H.uncle_color, hu, if_false, hin]
  exact h3

private theorem Holds.fixStep_inner {c : Color} {B C : Tree α} {z : Nat} {v : α}
    (H : Holds t (f1 :: f2 :: fs) (Tree.mk d c B z v C)) (h1 : f1.dir = d.opp) (h2 : f2.dir = d)
    (hu : f2.sib.color = .black) :
    ∃ t', RBTree.fixStep d t z = (t', f1.addr) ∧
      Holds t' (⟨d, .black, z, v, Tree.mk d .red C f2.addr f2.val f2.sib⟩ :: fs)
        (Tree.mk d f1.color f1.sib f1.addr f1.val B) := by
  have H1 := Holds.up.1 H
  have hp : (t.nodes z).parent = f1.addr := by simpa using H.parent_ptr (Tree.mk_ne_nil _ _ _ _ _ _)
  have hg : (t.nodes f1.addr).parent = f2.addr := by simpa using H1.parent_ptr (Frame.fill_ne_nil _ _)
  have hin : z = (t.nodes f1.addr).child d.opp := by
    rw [H.nodes_up, ← h1, Frame.cell_child, Tree.ptr_mk]
  have hun := H.uncle_ptr h2
  have huc := H.uncle_color
  rcases f1 with ⟨d1, c1, p, pv, S⟩
  dsimp only at h1 hp hg hin ⊢
  subst d1
  have R := Holds.rotate (d := d) (by simpa only [Frame.fill, Tree.mk_opp] using H1)
  obtain ⟨t', h3, H3⟩ := (Holds.up.2 R : Holds _ (⟨d, c, z, v, C⟩ :: f2 :: fs) _).fixCase3
    (Tree.mk_ne_nil _ _ _ _ _ _) rfl h2
  refine ⟨t', ?_, H3⟩
  simp only [RBTree.fixStep, hp, hg, hun, huc, hu, ← hin, if_false, if_true]
  simpa using h3

end

private theorem toList_case1 (d d1 : Dir) (c1 c2 : Color) (s S U : Tree α) (p g : Nat) (pv gv : α) :
    (Tree.mk d .red (Tree.mk d1 .black s p pv S) g gv (U.setColor .black)).toList =
      (Tree.mk d c2 (Tree.mk d1 c1 s p pv S) g gv U).toList := by
  cases d <;> cases d1 <;> simp

private theorem toList_case3 (d : Dir) (c1 c2 : Color) (s S U : Tree α) (p g : Nat) (pv gv : α) :
    (Tree.mk d .black s p pv (Tree.mk d .red S g gv U)).toList =
      (Tree.mk d c2 (Tree.mk d c1 s p pv S) g gv U).toList := by
  cases d <;> simp

private theorem toList_case2 (d : Dir) (c c1 c2 : Color) (B C S U : Tree α) (z p g : Nat) (v pv gv : α) :
    (Tree.mk d .black (Tree.mk d c1 S p pv B) z v (Tree.mk d .red C g gv U)).toList =
      (Tree.mk d c2 (Tree.mk d.opp c1 (Tree.mk d c B z v C) p pv S) g gv U).toList := by
  cases d <;> simp [Dir.opp]

private theorem fixLoop_exit {t : RBTree α} {f : Frame α} {fs : List (Frame α)} {s : Tree α}
    (H : Holds t (f :: fs) s) (hs : s ≠ .nil) (hf : f.color = .black) (fuel : Nat) :
    RBTree.fixLoop (fuel + 1) t s.ptr = some t := by
  simp [RBTree.fixLoop, H.parent_ptr hs, H.nodes_up, hf]

private theorem fixLoop_succ_red {t : RBTree α} {z : Nat} {d : Dir} (fuel : Nat)
    (hred : (t.nodes (t.nodes z).parent).color = .red)
    (hd : (if (t.nodes z).parent = (t.nodes (t.nodes (t.nodes z).parent).parent).left
      then Dir.left else Dir.right) = d) :
    RBTree.fixLoop (fuel + 1) t z =
      if (RBTree.fixStep d t z).2 = (RBTree.fixStep d t z).1.root then some (RBTree.fixStep d t z).1
      else RBTree.fixLoop fuel (RBTree.fixStep d t z).1 (RBTree.fixStep d t z).2 := by
  rw [← hd]
  simp only [RBTree.fixLoop, hred, if_true]
  split <;> rfl

private theorem Dir.eq_or_eq_opp (d e : Dir) : d = e ∨ d = e.opp := by
  cases d <;> cases e <;> simp [Dir.opp]

private theorem fixLoop_spec (fuel : Nat) : ∀ (t : RBTree α) (fs : List (Frame α)) (s : Tree α) (n : Nat),
    Holds t fs s → Balanced s .red n → PathViol fs n → fs.length < fuel →
    ∃ t', RBTree.fixLoop fuel t s.ptr = some t' ∧
      ∃ T c m, Holds t' [] T ∧ Balanced T c m ∧ T.toList = (plug fs s).toList := by
  induction fuel with
  | zero => intros; omega
  | succ fuel ih =>
    intro t fs s n H hb hv hlen
    have hs := hb.ne_nil
    match fs, hv with
    | [], _ =>
      exact ⟨t, by simp [RBTree.fixLoop, H.parent_ptr hs, H.sentinel, nilNode], s, _, _, H, hb, rfl⟩
    | f1 :: fs, hv =>
      cases hc1 : f1.color
      case black =>
        obtain ⟨m, hm⟩ := (hv.ok_of_black hc1).balanced_plug hb
        exact ⟨t, fixLoop_exit H hs hc1 fuel, _, _, _, H.unfocus, hm, rfl⟩
      case red =>
      simp only [PathViol, hc1] at hv
      obtain ⟨hS, hp⟩ := hv
      match fs, hp with
      | [], hp => simp [PathOK] at hp
      | f2 :: fs, hp =>
      cases hc2 : f2.color
      case red => simp [PathOK, hc2] at hp
      case black =>
      simp only [PathOK, hc2] at hp
      obtain ⟨⟨cu, hU⟩, hp⟩ := hp
      have H1 := Holds.up.1 H
      have hred : (t.nodes (t.nodes s.ptr).parent).color = .red := by
        rw [H.parent_ptr hs, upAddr_cons, H.nodes_up, Frame.cell_color, hc1]
      have hg : (t.nodes f1.addr).parent = f2.addr := by
        simpa using H1.parent_ptr (Frame.fill_ne_nil _ _)
      have hd := fixLoop_succ_red (d := f2.dir) fuel hred (by
        rw [H.parent_ptr hs, upAddr_cons, hg, H1.nodes_up, Frame.ptr_fill]
        exact Frame.left_dir _ _ _ (by simpa using H1.ptr_ne_sib (Frame.fill_ne_nil _ _)))
      rw [hd]
      cases hu : f2.sib.color
      case red =>
        obtain ⟨t', hstep, H'⟩ := H.fixStep_red hs rfl hu
        obtain rfl : cu = .red := hU.color_eq ▸ hu
        have hG := Balanced.red_mk (d := f2.dir) (a := f2.addr) (x := f2.val)
          (Balanced.black_mk (d := f1.dir) (a := f1.addr) (x := f1.val) hb hS) hU.setColor_black
        have hL := toList_plug_congr fs (toList_case1 f2.dir f1.dir f1.color f2.color s f1.sib f2.sib
          f1.addr f2.addr f1.val f2.val)
        rw [hstep]
        match fs, hp with
        | [], hp =>
          rw [if_pos (by simpa using H'.ctx.symm)]
          exact ⟨t', rfl, _, _, _, H', hG, hL⟩
        | f3 :: fs, hp =>
          rw [if_neg (by simpa using H'.ne_root (Tree.mk_ne_nil _ _ _ _ _ _))]
          obtain ⟨t'', h, T, c, m, HT, hT, hl⟩ :=
            ih t' _ _ _ H' hG hp.viol (by simp only [List.length_cons] at hlen ⊢; omega)
          exact ⟨t'', by simpa using h, T, c, m, HT, hT, hl.trans hL⟩
      case black =>
        obtain rfl : cu = .black := hU.color_eq ▸ hu
        obtain ⟨fuel, rfl⟩ : ∃ k, fuel = k + 1 :=
          ⟨fuel - 1, by simp only [List.length_cons] at hlen; omega⟩
        rcases Dir.eq_or_eq_opp f1.dir f2.dir with h1 | h1
        · obtain ⟨t', hstep, H'⟩ := H.fixStep_outer hs h1 rfl hu
          rw [hstep]
          dsimp only
          rw [if_neg (H'.ne_root hs), fixLoop_exit H' hs rfl]
          obtain ⟨m, hm⟩ := hp.balanced_plug (Balanced.black_mk (a := f1.addr) (x := f1.val) hb
            (Balanced.red_mk (a := f2.addr) (x := f2.val) hS hU))
          refine ⟨t', rfl, _, _, _, H'.unfocus, hm, toList_plug_congr fs ?_⟩
          simpa [Frame.fill, h1] using toList_case3 f2.dir f1.color f2.color s f1.sib f2.sib f1.addr
            f2.addr f1.val f2.val
        · obtain ⟨B, z, v, C, rfl, hB, hC⟩ := hb.exists_mk f2.dir
          obtain ⟨t', hstep, H'⟩ := H.fixStep_inner h1 rfl hu
          have hX := Tree.mk_ne_nil f2.dir f1.color f1.sib f1.addr f1.val B
          rw [Tree.ptr_mk, hstep]
          dsimp only
          rw [if_neg (by simpa using H'.ne_root hX)]
          rw [show f1.addr = (Tree.mk f2.dir f1.color f1.sib f1.addr f1.val B).ptr by simp,
            fixLoop_exit H' hX rfl]
          obtain ⟨m, hm⟩ := hp.balanced_plug (Balanced.black_mk (d := f2.dir) (a := z) (x := v)
            (Balanced.red_mk (d := f2.dir) (a := f1.addr) (x := f1.val) hS hB)
            (Balanced.red_mk (d := f2.dir) (a := f2.addr) (x := f2.val) hC hU))
          refine ⟨t', rfl, _, _, _, H'.unfocus, by simpa [Frame.fill, hc1] using hm,
            toList_plug_congr fs ?_⟩
          simpa [Frame.fill, h1] using toList_case2 f2.dir .red f1.color f2.color B C f1.sib f2.sib z
            f1.addr f2.addr v f1.val f2.val

theorem fixInsert_spec {t : RBTree α} {fs : List (Frame α)} {s : Tree α} {n : Nat}
    (H : Holds t fs s) (hb : Balanced s .red n) (hv : PathViol fs n) :
    (RBTree.fixLoop t.next t s.ptr).isSome ∧
      ∃ T m, Holds (RBTree.fixInsert t s.ptr) [] T ∧ Balanced T .black m ∧
        T.toList = (plug fs s).toList := by
  obtain ⟨t', h, T, c, m, HT, hT, hl⟩ := fixLoop_spec t.next t fs s n H hb hv (H.length_lt hb.ne_nil)
  have hT0 : T ≠ .nil := by
    rintro rfl
    exact toList_plug_ne_nil fs hb.ne_nil hl.symm
  obtain ⟨m', hm'⟩ := hT.exists_black
  refine ⟨by simp [h], T.setColor .black, m', ?_, hm', by simpa using hl⟩
  rw [RBTree.fixInsert, h]
  exact HT.recolor hT0 .black HT.ctx.symm

end ShardedLedger.Index
