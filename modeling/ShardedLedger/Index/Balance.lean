import ShardedLedger.Index.Tree

/-! Red-black balance on the zipper: how `Balanced` passes through `mk`, `setColor` and `plug`,
and how the path conditions `PathOK` and `PathViol` rebuild a balanced tree. -/

namespace ShardedLedger.Index
variable {α : Type} {d : Dir} {c c' : Color} {h s t : Tree α} {a : Nat} {x : α} {n : Nat}

theorem Balanced.color_eq (hb : Balanced t c n) : t.color = c := by
  cases hb <;> rfl

theorem Balanced.ne_nil (hb : Balanced t .red n) : t ≠ .nil := by
  rintro rfl
  cases hb

theorem Balanced.red_mk (hh : Balanced h .black n) (hs : Balanced s .black n) :
    Balanced (Tree.mk d .red h a x s) .red n := by
  cases d
  exacts [.red hh hs, .red hs hh]

theorem Balanced.black_mk {c₁ c₂ : Color} (hh : Balanced h c₁ n) (hs : Balanced s c₂ n) :
    Balanced (Tree.mk d .black h a x s) .black (n + 1) := by
  cases d
  exacts [.black hh hs, .black hs hh]

theorem Balanced.exists_mk (hb : Balanced t .red n) (d : Dir) :
    ∃ B z v C, t = Tree.mk d .red B z v C ∧ Balanced B .black n ∧ Balanced C .black n := by
  cases hb with
  | red hl hr => cases d; exacts [⟨_, _, _, _, rfl, hl, hr⟩, ⟨_, _, _, _, rfl, hr, hl⟩]

theorem Balanced.setColor_black (hb : Balanced t .red n) :
    Balanced (t.setColor .black) .black (n + 1) := by
  cases hb with
  | red hl hr => exact .black hl hr

theorem Balanced.exists_black (hb : Balanced t c n) : ∃ m, Balanced (t.setColor .black) .black m := by
  cases c
  · exact ⟨_, hb.setColor_black⟩
  · cases hb with
    | nil => exact ⟨0, .nil⟩
    | black hl hr => exact ⟨_, .black hl hr⟩

theorem PathOK.viol {fs : List (Frame α)} (hp : PathOK fs c n) : PathViol fs n := by
  cases fs with
  | nil => trivial
  | cons f fs =>
    simp only [PathOK] at hp
    simp only [PathViol]
    split at hp <;> simp_all

theorem PathViol.ok_of_black {f : Frame α} {fs : List (Frame α)} (hp : PathViol (f :: fs) n)
    (hf : f.color = .black) : PathOK (f :: fs) .red n := by
  simpa [PathViol, PathOK, hf] using hp

theorem PathOK.balanced_plug {fs : List (Frame α)} (hp : PathOK fs c n) (hs : Balanced s c n) :
    ∃ m, Balanced (plug fs s) .black m := by
  induction fs generalizing s c n with
  | nil => exact ⟨n, by simpa [plug, show c = .black from hp] using hs⟩
  | cons f fs ih =>
    rcases f with ⟨fd, fc, fa, fx, fsib⟩
    cases fc
    · obtain ⟨rfl, hsib, hp⟩ := hp
      exact ih hp (Balanced.red_mk hs hsib)
    · obtain ⟨⟨c', hsib⟩, hp⟩ := hp
      exact ih hp (Balanced.black_mk hs hsib)

theorem PathOK.of_balanced_plug {fs : List (Frame α)} {m : Nat} (hb : Balanced (plug fs s) .black m) :
    ∃ c n, Balanced s c n ∧ PathOK fs c n := by
  induction fs generalizing s with
  | nil => exact ⟨_, _, hb, rfl⟩
  | cons f fs ih =>
    obtain ⟨c, n, hf, hp⟩ := ih hb
    rcases f with ⟨fd, fc, fa, fx, fsib⟩
    cases fd <;> cases hf with
    | red hl hr => first | exact ⟨_, _, hl, rfl, hr, hp⟩ | exact ⟨_, _, hr, rfl, hl, hp⟩
    | black hl hr => first | exact ⟨_, _, hl, ⟨_, hr⟩, hp⟩ | exact ⟨_, _, hr, ⟨_, hl⟩, hp⟩

end ShardedLedger.Index
