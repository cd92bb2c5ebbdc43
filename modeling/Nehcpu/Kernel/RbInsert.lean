-- What `rb_insert` makes of a red-black tree: the way down, the new node and the repair on the way
-- up.
import Nehcpu.Kernel.RbShape

namespace nehcpu.kernel.rbtree

open redblack Function

variable {T : rb_tree} {h : Heap} {c : Ctx Node} {t : BinTree Node}

/-! ## One turn of the repair -/

theorem insertInner_spec {f g : Frame Node} {n : Nat} (hat : At T h (f :: g :: c) t)
    (hc : Fits (f :: g :: c) n) (ht : BlackHeight t n) (hr : t.isRed = true) (hf : f.red = true) :
    ∃ f' t' h', insertInner T g.side (ptr T t) h = some (ptr T t', h') ∧
      At T h' (f' :: g :: c) t' ∧ f'.side = g.side ∧ f'.red = true ∧ Fits (f' :: g :: c) n ∧
      BlackHeight t' n ∧ t'.isRed = true ∧ (f'.fill t').inorder = (f.fill t).inorder := by
  have hne : t ≠ .nil := by rintro rfl; cases hr
  have hp : (h (ptr T t)).parent = f.a := hat.parent hne
  have hfa : h f.a = .facing f.side f.red g.a (ptr T t) (ptr T f.sib) := (at_cons.1 hat).node
  unfold insertInner
  rw [hp, hfa]
  by_cases hd : f.side = g.side
  · rw [← hd, rb_node.facing_child_flip, if_neg (hat.ptr_ne (.inl hne))]
    exact ⟨f, t, h, rfl, hat, rfl, hf, hc, ht, hr, rfl⟩
  · obtain ⟨d, red, a, v⟩ := f
    obtain rfl : d = g.side.flip := Side.eq_flip_of_ne hd
    cases hf
    obtain ⟨s, b, u, rfl⟩ := exists_red hr g.side
    have hup : At T h (g :: c) (.facing g.side true v a (.facing g.side true s b u)) := by
      rw [← BinTree.facing_flip]
      exact at_cons.1 hat
    obtain ⟨h', hrot, hat', -⟩ := hup.rotates
    have hin := insert_inner hc (by rwa [Side.flip_flip]) rfl
    simp only [Side.flip_flip] at hin
    refine ⟨⟨g.side, true, b, u⟩, .facing g.side true v a s, h', ?_, at_cons.2 hat', rfl, rfl,
      hin.1, hin.2, BinTree.isRed_facing .., ?_⟩
    · rw [rb_node.facing_child, if_pos rfl, ptr_facing]
      simp only [hrot]
      rfl
    · rw [Frame.fill, Frame.fill, BinTree.facing_flip]
      exact BinTree.inorder_rotate ..

theorem insertSub_spec {f g : Frame Node} {n : Nat} (hat : At T h (f :: g :: c) t)
    (hc : Fits (f :: g :: c) n) (ht : BlackHeight t n) (hr : t.isRed = true) (hf : f.red = true) :
    ∃ c' t' h', insertSub T g.side (ptr T t) h = some (ptr T t', h') ∧ At T h' c' t' ∧
      (plug c' t').inorder = (plug (f :: g :: c) t).inorder ∧ t'.isRed = true ∧
      c'.length < (f :: g :: c).length ∧ ∃ m, Fits c' m ∧ BlackHeight t' m := by
  have hne : t ≠ .nil := by rintro rfl; cases hr
  have hp : (h (ptr T t)).parent = f.a := hat.parent hne
  have hfp : (h f.a).parent = g.a := hat.up_parent
  have hga : (h g.a).child g.side.flip = ptr T g.sib := by
    rw [(at_cons.1 (at_cons.1 hat)).node, rb_node.facing_child_flip]
  have hy : (h (ptr T g.sib)).red = g.sib.isRed := At.red (at_swap.1 (at_cons.1 hat))
  unfold insertSub
  simp only [hp, hfp, hga, hy]
  split
  next hgr =>
    -- the colours of the parent, of its sibling and of the node above them
    obtain ⟨hc', ht'⟩ := insert_recolour hc ht hf hgr
    generalize hh1 : h.setRed f.a false = h1
    have hat1 : At T h1 ({ f with red := false } :: g :: c) t := hh1 ▸ hat.setRed_up false
    generalize hh2 : h1.setRed (ptr T g.sib) false = h2
    have hat2 : At T h2 ({ f with red := false } :: { g with sib := g.sib.blacken } :: c) t :=
      hh2 ▸ at_cons.2 (at_cons.1 hat1).blacken_sib
    have hp2 : (h2 (ptr T t)).parent = f.a := hat2.parent hne
    have hfp2 : (h2 f.a).parent = g.a := hat2.up_parent
    simp only [hp2, hfp2]
    generalize hh3 : h2.setRed g.a true = h3
    have hat3 : At T h3 (⟨f.side, false, f.a, f.sib⟩ :: ⟨g.side, true, g.a, g.sib.blacken⟩ :: c)
        t := hh3 ▸ at_cons.2 ((at_cons.1 hat2).setRed_up true)
    have hp3 : (h3 (ptr T t)).parent = f.a := hat3.parent hne
    have hfp3 : (h3 f.a).parent = g.a := hat3.up_parent
    simp only [hp3, hfp3]
    refine ⟨c, _, h3, by rw [ptr_fill], at_cons.1 (at_cons.1 hat3), ?_, BinTree.isRed_facing ..,
      by simp only [List.length_cons]; omega, n + 1, hc', ht'⟩
    exact inorder_plug_congr c
      (BinTree.inorder_facing_congr (BinTree.inorder_recolour ..) (BinTree.inorder_blacken _))
  next hgr =>
    obtain ⟨f', t', h1, hin, hat1, hside, hf1, hc1, ht1, hr1, hord⟩ :=
      insertInner_spec hat hc ht hr hf
    obtain ⟨d, red, a, s⟩ := f'
    obtain rfl : d = g.side := hside
    have hne1 : t' ≠ .nil := by rintro rfl; cases hr1
    have hp1 : (h1 (ptr T t')).parent = a := hat1.parent hne1
    simp only [hin, bind, Option.bind_some, hp1]
    generalize hh2 : h1.setRed a false = h2
    have hat2 : At T h2 (⟨g.side, false, a, s⟩ :: g :: c) t' := hh2 ▸ hat1.setRed_up false
    have hp2 : (h2 (ptr T t')).parent = a := hat2.parent hne1
    have hfp2 : (h2 a).parent = g.a := hat2.up_parent
    simp only [hp2, hfp2]
    generalize hh3 : h2.setRed g.a true = h3
    have hat3 : At T h3 (⟨g.side, false, a, s⟩ :: ⟨g.side, true, g.a, g.sib⟩ :: c) t' :=
      hh3 ▸ at_cons.2 ((at_cons.1 hat2).setRed_up true)
    have hp3 : (h3 (ptr T t')).parent = a := hat3.parent hne1
    have hfp3 : (h3 a).parent = g.a := hat3.up_parent
    have hup : At T h3 c
        (.facing g.side.flip true g.sib g.a (.facing g.side.flip false s a t')) := by
      rw [BinTree.facing_flip, BinTree.facing_flip]
      exact at_cons.1 (at_cons.1 hat3)
    obtain ⟨h4, hrot, hat4, -⟩ := hup.rotates
    rw [BinTree.facing_flip, BinTree.facing_flip] at hat4
    simp only [hp3, hfp3, hrot, Option.bind_some]
    refine ⟨⟨g.side, false, a, .facing g.side true s g.a g.sib⟩ :: c, t', h4, rfl,
      at_cons.2 hat4, ?_, hr1, by simp, n, insert_rotate hc1 hf1 (by simpa using hgr), ht1⟩
    have hrot' := BinTree.inorder_rotate g.side false true red g.red t' a s g.a g.sib
    exact inorder_plug_congr c (hrot'.symm.trans (BinTree.inorder_facing_congr hord rfl))

/-! ## The repair -/

theorem insertLoop_spec {n : Nat} (fuel : Nat) (hat : At T h c t) (hc : Fits c n)
    (ht : BlackHeight t n) (hr : t.isRed = true) (hfuel : c.length < fuel) :
    ∃ t' h', insertLoop T fuel (ptr T t) h = some h' ∧ At T h' [] t' ∧
      t'.inorder = (plug c t).inorder ∧ RedBlack t'.blacken := by
  induction fuel generalizing c t h n with
  | zero => exact absurd hfuel (Nat.not_lt_zero _)
  | succ fuel ih =>
    have hne : t ≠ .nil := by rintro rfl; cases hr
    have hp : (h (ptr T t)).parent = up T c := hat.parent hne
    unfold insertLoop
    rw [hp]
    cases c with
    | nil =>
      have hroot : (h (up T [])).red = false := congrArg rb_node.red hat.hung
      rw [if_neg (by simp [hroot])]
      exact ⟨t, h, rfl, hat, rfl, BinTree.isRed_blacken t, n + 1, ht.blacken hr⟩
    | cons f c =>
      have hfr : (h (up T (f :: c))).red = f.red := by
        rw [up, (at_cons.1 hat).node, rb_node.facing_red]
      rw [hfr]
      split
      next hf =>
        -- a red parent is not the root, so there is a node above it
        obtain ⟨g, c, rfl, -⟩ := Sits.parent (hf ▸ hc.2.2.1)
        have hside := At.side_eq (at_cons.1 hat) (.inl (f.fill_ne_nil t))
        rw [ptr_fill] at hside
        obtain ⟨c', t', h', hsub, hat', hord, hr', hlen, m, hc', ht'⟩ :=
          insertSub_spec hat hc ht hr hf
        obtain ⟨t'', h'', hloop, hat'', hord', hrb⟩ := ih hat' hc' ht' hr' (by omega)
        have hfp : (h f.a).parent = g.a := hat.up_parent
        simp only [up, hfp, hside, hsub, bind, Option.bind_some]
        exact ⟨t'', h'', hloop, hat'', hord'.trans hord, hrb⟩
      next hf =>
        have hblack : RedBlack (plug (f :: c) t) := by
          refine redBlack_plug.2 ⟨n, hc, ht, ?_⟩
          rw [hr]
          simpa [Sits] using hf
        exact ⟨_, h, rfl, at_plug.1 hat, rfl, by rwa [BinTree.blacken_of_black hblack.1]⟩

/-! ## The way down -/

/-- What the code is given as `compare`. -/
structure TotalPreorder (compare : Node → Node → Int) : Prop where
  total : ∀ a b, compare a b ≤ 0 ∨ compare b a ≤ 0
  trans : ∀ a b d, compare a b ≤ 0 → compare b d ≤ 0 → compare a d ≤ 0

abbrev rb_tree.le (T : rb_tree) (a b : Node) : Prop := T.compare a b ≤ 0

theorem rb_tree.le_of_le (hT : TotalPreorder T.compare) (z a b : Node) (hab : T.le a b)
    (hb : T.le b z) : T.le a z := hT.trans a b z hab hb

theorem Between.of_splits {z : Node} (hT : TotalPreorder T.compare) (h : Splits (T.le · z) c) :
    Between T.le c z :=
  ⟨h.1, fun a ha => (hT.total a z).resolve_left (h.2 a ha)⟩

/-- The side taken at the last node on the way down is the one `compare` says. -/
def Came (T : rb_tree) (z : Node) : Ctx Node → Prop
  | [] => True
  | f :: _ => f.side = if T.compare f.a z > 0 then .left else .right

theorem binaryLoop_spec {z : Node} (hT : TotalPreorder T.compare) (fuel : Nat) (hat : At T h c t)
    (hs : Sorted T.le (plug c t)) (hz : Splits (T.le · z) c) (hc : Came T z c)
    (hfuel : t.nodes.card < fuel) :
    ∃ c', binaryLoop T z h fuel (up T c) (ptr T t) = some (up T c') ∧ plug c' .nil = plug c t ∧
      Splits (T.le · z) c' ∧ Came T z c' := by
  induction fuel generalizing c t with
  | zero => exact absurd hfuel (Nat.not_lt_zero _)
  | succ fuel ih =>
    unfold binaryLoop
    cases t with
    | nil => exact ⟨c, if_neg (not_not.2 rfl), rfl, hz, hc⟩
    | node red l a r =>
      have hn : (BinTree.node red l a r).nodes = a ::ₘ (l.nodes + r.nodes) :=
        BinTree.nodes_facing .left red l a r
      have ha : a ≠ T.nil := by
        rintro rfl
        exact hat.nil_out (hn ▸ Multiset.mem_cons_self ..)
      simp only [hn, Multiset.card_cons, Multiset.card_add] at hfuel
      rw [ptr, if_pos ha, show h a = _ from hat.shape.1]
      by_cases hcmp : T.compare a z > 0
      · rw [if_pos hcmp]
        have hza : ¬T.le a z := Int.not_le.2 hcmp
        exact ih (c := ⟨.left, red, a, r⟩ :: c) (at_cons.2 hat) hs
          (hz.left (rb_tree.le_of_le hT z) hs hza) (if_pos hcmp).symm (by omega)
      · rw [if_neg hcmp]
        have haz : T.le a z := Int.not_lt.1 hcmp
        exact ih (c := ⟨.right, red, a, l⟩ :: c) (at_cons.2 hat) hs
          (hz.right (rb_tree.le_of_le hT z) hs haz) (if_neg hcmp).symm (by omega)

/-! ## The new node -/

theorem At.edit_out {z : Node} (hat : At T h c t) (hz : Out T (plug c t) z)
    (f : rb_node → rb_node) : At T (h.edit z f) c t := by
  obtain ⟨hnil, hroot, hout⟩ := hz
  rw [nodes_plug, Multiset.mem_add, not_or] at hout
  have hne : ∀ b, b ≠ z → (h.edit z f) b = h b := fun b => Heap.edit_of_ne f
  obtain ⟨hs, hc, ha, hb⟩ := hat
  refine ⟨hs.frame fun b hb => hne b (by grind), ?_, ha, by rw [hne _ hnil.symm, hb]⟩
  exact hc.frame (hne _ hroot.symm) fun b hb => hne b (by grind)

theorem At.link {z : Node} {red : Bool} (hat : At T h c .nil) (hz : Out T (plug c .nil) z)
    (hh : h z = ⟨red, up T c, T.nil, T.nil⟩) :
    At T ((h.setChild (up T c) (sideOf c) z).setRed z true) c (.node true .nil z .nil) := by
  obtain ⟨hnil, hroot, hout⟩ := hz
  rw [nodes_plug, Multiset.mem_add, not_or] at hout
  obtain ⟨-, hc, ha, hb⟩ := hat
  have hap := ha
  simp only [BinTree.nodes_nil, Multiset.add_zero, Multiset.nodup_cons, Multiset.mem_cons,
    not_or] at hap
  have hup := up_mem (T := T) c
  generalize hh1 : h.setChild (up T c) (sideOf c) z = h1
  generalize hh2 : h1.setRed z true = h2
  have e1 : ∀ b, b ≠ up T c → h1 b = h b := fun b hb => hh1 ▸ Heap.edit_of_ne _ hb
  have e2 : ∀ b, b ≠ z → h2 b = h1 b := fun b hb => hh2 ▸ Heap.edit_of_ne _ hb
  have s1 : h1 (up T c) = (h (up T c)).setChild z (sideOf c) := hh1 ▸ Heap.edit_self ..
  have s2 : h2 z = { h1 z with red := true } := hh2 ▸ Heap.edit_self ..
  refine ⟨⟨?_, trivial, trivial⟩, ?_, ?_, ?_⟩
  · rw [s2, e1 z (by grind), hh]
    rfl
  · refine hc.refill (Multiset.nodup_cons.2 ⟨hap.2.1, hap.2.2⟩) ?_ fun b hb hbu => ?_
    · rw [e2 _ (by grind), s1]
      rfl
    · rw [e2 b (by grind), e1 b hbu]
  · rw [show (BinTree.node true .nil z .nil).nodes = z ::ₘ 0 from rfl]
    simp only [Multiset.add_cons, Multiset.add_zero, Multiset.nodup_cons, Multiset.mem_cons,
      not_or]
    grind
  · rw [e2 _ (by grind), e1 _ (by grind), hb]

theorem rb_insert_binary_spec {z : Node} {fuel : Nat} (hT : TotalPreorder T.compare)
    (hat : At T h [] t) (hs : Sorted T.le t) (hz : Out T t z) (hfuel : t.nodes.card < fuel) :
    ∃ c h', rb_insert_binary T fuel z h = some h' ∧ plug c .nil = t ∧ Splits (T.le · z) c ∧
      At T (h'.setRed z true) c (.node true .nil z .nil) := by
  simp only [rb_insert_binary]
  generalize hh1 : (h.setChild z .right T.nil).setChild z .left T.nil = h1
  have hat1 : At T h1 [] t := hh1 ▸ (hat.edit_out hz _).edit_out hz _
  have hl : (h1 T.root).left = ptr T t := congrArg rb_node.left hat1.hung
  obtain ⟨c, hloop, rfl, hb, hc⟩ :=
    binaryLoop_spec (z := z) (c := []) hT fuel hat1 hs ⟨nofun, nofun⟩ trivial hfuel
  have hz1 : h1 z = ⟨(h z).red, (h z).parent, T.nil, T.nil⟩ := by
    rw [← hh1]
    simp only [Heap.setChild, Heap.edit_self]
    rfl
  rw [up] at hloop
  rw [hl, hloop]
  simp only [bind, Option.bind_some]
  generalize hh2 : h1.setParent z (up T c) = h2
  have hat2 : At T h2 c .nil := hh2 ▸ (at_plug.2 hat1).edit_out hz _
  have hz2 : h2 z = ⟨(h z).red, up T c, T.nil, T.nil⟩ := by
    rw [← hh2, Heap.setParent, Heap.edit_self, hz1]
  refine ⟨c, h2.setChild (up T c) (sideOf c) z, ?_, rfl, hb, hat2.link hz hz2⟩
  cases c with
  | nil => exact if_pos (Or.inl rfl)
  | cons f c =>
    have hf : f.a ≠ T.root := by
      rintro hf
      have hap := hat2.apart
      simp only [ctxNodes, Multiset.nodup_cons, Multiset.mem_cons, Multiset.mem_add] at hap
      grind
    have hside : f.side = if T.compare f.a z > 0 then .left else .right := hc
    rw [up, sideOf, hside]
    by_cases hcmp : T.compare f.a z > 0
    · rw [if_pos (Or.inr hcmp), if_pos hcmp]
    · rw [if_neg (not_or.2 ⟨hf, hcmp⟩), if_neg hcmp]

/-- The node comes in behind those that are not above it, and what it comes into stays a red-black
tree. -/
theorem rb_insert_spec {z : Node} {fuel : Nat} (hT : TotalPreorder T.compare)
    (hat : At T h [] t) (hs : Sorted T.le t) (hrb : RedBlack t) (hz : Out T t z)
    (hfuel : t.nodes.card + 1 < fuel) :
    ∃ c t' h', rb_insert T fuel z h = some h' ∧ At T h' [] t' ∧ RedBlack t' ∧ Sorted T.le t' ∧
      Splits (T.le · z) c ∧ t.inorder = before c ++ after c ∧
      t'.inorder = before c ++ z :: after c := by
  obtain ⟨c, h1, hbin, rfl, hb, hat1⟩ := rb_insert_binary_spec hT hat hs hz
    (show t.nodes.card < fuel by omega)
  obtain ⟨n, hc, hn, -⟩ := redBlack_plug.1 hrb
  obtain rfl : n = 0 := hn
  have hlen : c.length ≤ (plug c .nil).nodes.card := length_le_nodes c .nil
  have hnode : BlackHeight (.node true .nil z .nil : BinTree Node) 0 := ⟨⟨rfl, rfl⟩, rfl, rfl⟩
  obtain ⟨t', h2, hloop, hat2, hord, hrb'⟩ :=
    insertLoop_spec fuel hat1 hc hnode rfl (by omega)
  have hl : (h2 T.root).left = ptr T t' := congrArg rb_node.left hat2.hung
  have hat3 : At T (h2.setRed (ptr T t') false) [] t'.blacken := hat2.blacken
  have hroot : (h2.setRed (ptr T t') false T.root).red = false := congrArg rb_node.red hat3.hung
  refine ⟨c, t'.blacken, _, ?_, hat3, hrb', ?_, hb, ?_, ?_⟩
  · have hloop' : insertLoop T fuel z (h1.setRed z true) = some h2 := hloop
    have hg : (h2.setRed (ptr T t') false T.nil).red = false ∧
        (h2.setRed (ptr T t') false T.root).red = false := ⟨hat3.nil_black, hroot⟩
    simp only [rb_insert, hbin, bind, Option.bind_some, hloop', hl, guard, if_pos hg]
    rfl
  · have hs' : Sorted T.le (plug c (.node true .nil z .nil)) :=
      sorted_plug_insert hs (Between.of_splits hT hb) rfl
    unfold Sorted at hs' ⊢
    rwa [BinTree.inorder_blacken, hord]
  · simp [inorder_plug, BinTree.inorder]
  · rw [BinTree.inorder_blacken, hord, inorder_plug]
    simp [BinTree.inorder]

end nehcpu.kernel.rbtree
