-- What `rb_delete` makes of a red-black tree: the node that leaves its place, the repair on the way
-- up, and the root that the repair has read before it turns the tree.
import Nehcpu.Kernel.RbShape

namespace nehcpu.kernel.rbtree

open redblack Function

variable {T : rb_tree} {h h' : Heap} {c : Ctx Node} {t : BinTree Node}

/-! ## The sibling -/

section
variable {d e : Side} {red r : Bool} {a w : Node} {s u : BinTree Node}

/-- The tree, seen from the children of the sibling. -/
theorem at_near : At T h (⟨d, red, a, .facing e r s w u⟩ :: c) t ↔
    At T h (⟨e, r, w, u⟩ :: ⟨d.flip, red, a, t⟩ :: c) s :=
  at_swap.trans (at_cons (f := ⟨e, r, w, u⟩)).symm

theorem at_far : At T h (⟨d, red, a, .facing e r s w u⟩ :: c) t ↔
    At T h (⟨e.flip, r, w, s⟩ :: ⟨d.flip, red, a, t⟩ :: c) u := by
  rw [← at_near, BinTree.facing_flip]

theorem At.setRed_sib (hat : At T h (⟨d, red, a, .facing e r s w u⟩ :: c) t) (r' : Bool) :
    At T (h.setRed w r') (⟨d, red, a, .facing e r' s w u⟩ :: c) t :=
  at_near.2 ((at_near.1 hat).setRed_up r')

theorem At.blacken_near (hat : At T h (⟨d, red, a, .facing e r s w u⟩ :: c) t) :
    At T (h.setRed (ptr T s) false) (⟨d, red, a, .facing e r s.blacken w u⟩ :: c) t :=
  at_near.2 (at_near.1 hat).blacken

theorem At.blacken_far (hat : At T h (⟨d, red, a, .facing e r s w u⟩ :: c) t) :
    At T (h.setRed (ptr T u) false) (⟨d, red, a, .facing e r s w u.blacken⟩ :: c) t :=
  at_far.2 (at_far.1 hat).blacken

end

@[simp] theorem Heap.setRed_parent (h : Heap) (a b : Node) (red : Bool) :
    (h.setRed a red b).parent = (h b).parent := by
  by_cases hb : b = a
  · rw [hb, Heap.setRed, Heap.edit_self]
  · rw [Heap.setRed, Heap.edit_of_ne _ hb]

/-- The parent of the place where the repair stands. With nothing there it is kept in `nil`. -/
theorem At.parent_or (hat : At T h c t) (hnil : t = .nil → (h T.nil).parent = up T c) :
    (h (ptr T t)).parent = up T c := by
  by_cases ht : t = .nil
  · rw [ht]
    exact hnil ht
  · exact hat.parent ht

theorem deleteSibling_spec {f : Frame Node} {n : Nat} (hat : At T h (f :: c) t)
    (hp : (h (ptr T t)).parent = f.a) (hc : Fits (f :: c) (n + 1)) :
    ∃ f' c' h', deleteSibling T f.side (ptr T t) h = some (ptr T f'.sib, h') ∧
      At T h' (f' :: c') t ∧ (h' (ptr T t)).parent = f'.a ∧ f'.side = f.side ∧ f'.a = f.a ∧
      f'.sib.isRed = false ∧ Fits (f' :: c') (n + 1) ∧
      (plug (f' :: c') t).inorder = (plug (f :: c) t).inorder ∧
      (f' = f ∧ c' = c ∨ f'.red = true ∧ ∃ g, c' = g :: c) := by
  have hsib : (h f.a).child f.side.flip = ptr T f.sib := by
    rw [(at_cons.1 hat).node, rb_node.facing_child_flip]
  have hr : (h (ptr T f.sib)).red = f.sib.isRed := At.red (at_swap.1 hat)
  unfold deleteSibling
  simp only [hp, hsib, hr]
  by_cases hred : f.sib.isRed = true
  · obtain ⟨d, red, a, v⟩ := f
    obtain ⟨s, w, u, rfl⟩ := exists_red hred d
    obtain ⟨rfl, hc'⟩ := delete_red_sibling hc
    rw [if_pos hred, ptr_facing]
    have hat1 := hat.setRed_sib false
    have hp1 : (h.setRed w false (ptr T t)).parent = a := by rw [Heap.setRed_parent, hp]
    generalize h.setRed w false = h1 at hat1 hp1
    have hat2 := hat1.setRed_up true
    have hp2 : (h1.setRed a true (ptr T t)).parent = a := by rw [Heap.setRed_parent, hp1]
    simp only [hp1]
    generalize h1.setRed a true = h2 at hat2 hp2
    obtain ⟨h3, hrot, hat3, hnil⟩ := (at_cons.1 hat2).rotates
    have hat3' : At T h3 (⟨d, true, a, s⟩ :: ⟨d, false, w, u⟩ :: c) t :=
      at_cons.2 (at_cons.2 hat3)
    have hp3 : (h3 (ptr T t)).parent = a := by
      refine hat3'.parent_or fun ht => ?_
      rw [hnil, ← hp2, ht]
      rfl
    have hs : (h3 a).child d.flip = ptr T s := by
      rw [(at_cons.1 hat3').node, rb_node.facing_child_flip]
    refine ⟨⟨d, true, a, s⟩, ⟨d, false, w, u⟩ :: c, h3, ?_, hat3', hp3, rfl, rfl, ?_, hc', ?_,
      .inr ⟨rfl, _, rfl⟩⟩
    · simp only [hp2, hrot, bind, Option.bind_some, hp3, hs]
    · exact hc'.2.1 rfl
    · exact inorder_plug_congr c (BinTree.inorder_rotate ..)
  · rw [if_neg hred]
    exact ⟨f, c, h, rfl, hat, hp, rfl, rfl, by simpa using hred, hc, rfl, .inl ⟨rfl, rfl⟩⟩

theorem deleteInner_spec {d : Side} {red : Bool} {a w : Node} {s u : BinTree Node} {n : Nat}
    (hat : At T h (⟨d, red, a, .facing d false s w u⟩ :: c) t) (hp : (h (ptr T t)).parent = a)
    (hc : Fits (⟨d, red, a, .facing d false s w u⟩ :: c) n)
    (hsu : s.isRed = false → u.isRed = true) :
    ∃ s' w' u' h', deleteInner T d (ptr T t) w h = some (w', h') ∧
      At T h' (⟨d, red, a, .facing d false s' w' u'⟩ :: c) t ∧ (h' (ptr T t)).parent = a ∧
      Fits (⟨d, red, a, .facing d false s' w' u'⟩ :: c) n ∧ u'.isRed = true ∧
      (BinTree.facing d false s' w' u').inorder = (BinTree.facing d false s w u).inorder := by
  have hw : h w = .facing d false a (ptr T s) (ptr T u) := (at_swap.1 hat).node
  have hru : (h (ptr T u)).red = u.isRed := (at_far.1 hat).red
  unfold deleteInner
  simp only [hw, rb_node.facing_child, rb_node.facing_child_flip, hru]
  by_cases hu : u.isRed = true
  · rw [hu]
    exact ⟨s, w, u, h, rfl, hat, hp, hc, hu, rfl⟩
  · have hu' : u.isRed = false := by simpa using hu
    obtain ⟨s, b, v, rfl⟩ := exists_red (by grind : s.isRed = true) d
    have hat1 := hat.blacken_near
    rw [BinTree.blacken_facing, ptr_facing] at hat1
    simp only [hu', ptr_facing]
    have hp1 : (h.setRed b false (ptr T t)).parent = a := by rw [Heap.setRed_parent, hp]
    generalize h.setRed b false = h1 at hat1 hp1
    have hat2 := hat1.setRed_sib true
    have hp2 : (h1.setRed w true (ptr T t)).parent = a := by rw [Heap.setRed_parent, hp1]
    generalize h1.setRed w true = h2 at hat2 hp2
    have hup : At T h2 (⟨d.flip, red, a, t⟩ :: c)
        (.facing d.flip true u w (.facing d.flip false v b s)) := by
      rw [BinTree.facing_flip, BinTree.facing_flip]
      exact at_swap.1 hat2
    obtain ⟨h3, hrot, hat3, hnil⟩ := hup.rotates
    rw [BinTree.facing_flip, BinTree.facing_flip] at hat3
    have hat3' : At T h3 (⟨d, red, a, .facing d false s b (.facing d true v w u)⟩ :: c) t :=
      at_swap.2 hat3
    have hp3 : (h3 (ptr T t)).parent = a := by
      refine hat3'.parent_or fun ht => ?_
      rw [hnil, ← hp2, ht]
      rfl
    have hb : (h3 a).child d.flip = b := by
      rw [(at_cons.1 hat3').node, rb_node.facing_child_flip, ptr_facing]
    refine ⟨s, b, .facing d true v w u, h3, ?_, hat3', hp3, delete_inner hc hu',
      BinTree.isRed_facing .., (BinTree.inorder_rotate ..).symm⟩
    simp only [hrot, bind, Option.bind_some, hp3, hb]
    rfl

/-! ## One turn of the repair -/

/-- The repair goes on at a node further up, or at a red one. `root` is still the root of the tree,
unless the repair is about to end. -/
def GoesOn (T : rb_tree) (root : Node) (o : List Node) (len : Nat) (x : Node) (h : Heap) : Prop :=
  ∃ c t n, x = ptr T t ∧ At T h c t ∧ (h x).parent = up T c ∧ Fits c (n + 1) ∧ Short t n ∧
    (plug c t).inorder = o ∧ (t.isRed = true ∨ c.length < len ∧ root = ptr T (plug c t))

/-- The tree is right again, and the next `x` is the old root, wherever that is now. -/
def Ends (T : rb_tree) (root : Node) (o : List Node) (x : Node) (h : Heap) : Prop :=
  ∃ t, x = root ∧ At T h [] t ∧ RedBlack t ∧ t.inorder = o ∧ (h root).red = false

theorem deleteSub_spec {f : Frame Node} {n : Nat} (hat : At T h (f :: c) t)
    (hp : (h (ptr T t)).parent = f.a) (hc : Fits (f :: c) (n + 1)) (ht : BlackHeight t n) :
    ∃ x' h', deleteSub T f.side (ptr T (plug (f :: c) t)) (ptr T t) h = some (x', h') ∧
      (GoesOn T (ptr T (plug (f :: c) t)) (plug (f :: c) t).inorder (f :: c).length x' h' ∨
        Ends T (ptr T (plug (f :: c) t)) (plug (f :: c) t).inorder x' h') := by
  obtain ⟨f', c', h1, hsib, hat1, hp1, hside, ha, hblack, hc1, hord1, hcase⟩ :=
    deleteSibling_spec hat hp hc
  generalize hroot : ptr T (plug (f :: c) t) = root
  obtain ⟨d, r, a, v⟩ := f'
  obtain rfl : d = f.side := hside
  obtain ⟨s, w, u, rfl, hs, hu⟩ := BlackHeight.exists_black hc1.1 hblack f.side
  have hw : h1 w = .facing f.side false a (ptr T s) (ptr T u) := (at_swap.1 hat1).node
  have hrs : (h1 (ptr T s)).red = s.isRed := (at_near.1 hat1).red
  have hru : (h1 (ptr T u)).red = u.isRed := (at_far.1 hat1).red
  unfold deleteSub
  simp only [hsib, bind, Option.bind_some, ptr_facing, hw, rb_node.facing_child,
    rb_node.facing_child_flip, hrs, hru]
  by_cases hsu : s.isRed = false ∧ u.isRed = false
  · obtain ⟨m, hc2, hshort⟩ := delete_recolour hc1 ht hsu.1 hsu.2
    rw [if_pos (by simp [hsu.1, hsu.2])]
    have hat2 := hat1.setRed_sib true
    have hp2 : (h1.setRed w true (ptr T t)).parent = a := by rw [Heap.setRed_parent, hp1]
    refine ⟨_, _, rfl, .inl ⟨c', _, m, ?_, at_cons.1 hat2, ?_, hc2, hshort, ?_, ?_⟩⟩
    · rw [hp2, ptr_fill]
    · rw [hp2]
      exact hat2.up_parent
    · rw [← hord1]
      exact inorder_plug_congr c' (BinTree.inorder_facing_congr rfl (BinTree.inorder_recolour ..))
    · rcases hcase with ⟨-, rfl⟩ | ⟨hr, -⟩
      · refine .inr ⟨Nat.lt_succ_self _, ?_⟩
        rw [← hroot]
        exact ptr_plug_congr c' (by rw [ptr_fill, ptr_fill, ← ha])
      · exact .inl ((BinTree.isRed_facing ..).trans hr)
  · have hred : s.isRed = false → u.isRed = true := by
      intro hs
      simpa [hs] using hsu
    obtain ⟨s', w', u', h2, hin, hat2, hp2, hc2, hu', hord2⟩ :=
      deleteInner_spec hat1 hp1 hc1 hred
    have hw2 : h2 w' = .facing f.side false a (ptr T s') (ptr T u') := (at_swap.1 hat2).node
    have hr2 : (h2 a).red = r := by rw [(at_cons.1 hat2).node, rb_node.facing_red]
    rw [if_neg (by simpa using hsu)]
    simp only [hin, Option.bind_some, hp2, hr2]
    have hat3 := hat2.setRed_sib r
    have hp3 : (h2.setRed w' r (ptr T t)).parent = a := by rw [Heap.setRed_parent, hp2]
    generalize h2.setRed w' r = h3 at hat3 hp3
    have hat4 := hat3.setRed_up false
    have hp4 : (h3.setRed a false (ptr T t)).parent = a := by rw [Heap.setRed_parent, hp3]
    have hw4 : (h3.setRed a false w').child f.side.flip = ptr T u' := by
      rw [(at_swap.1 hat4).node, rb_node.facing_child_flip]
    simp only [hp3, hw4]
    generalize h3.setRed a false = h4 at hat4 hp4
    have hat5 := hat4.blacken_far
    have hp5 : (h4.setRed (ptr T u') false (ptr T t)).parent = a := by
      rw [Heap.setRed_parent, hp4]
    generalize h4.setRed (ptr T u') false = h5 at hat5 hp5
    obtain ⟨h6, hrot, hat6, -⟩ := (at_cons.1 hat5).rotates
    have hrb := delete_rotate hc2 ht hu'
    simp only [hp5, hrot, Option.bind_some]
    refine ⟨_, _, rfl, .inr ⟨_, rfl, at_plug.1 hat6, hrb, ?_, ?_⟩⟩
    · have hsib : (BinTree.facing f.side false s' w' u'.blacken).inorder =
          (BinTree.facing f.side false s w u).inorder :=
        (BinTree.inorder_facing_congr rfl (BinTree.inorder_blacken u')).trans hord2
      rw [← hord1]
      exact inorder_plug_congr c' ((BinTree.inorder_rotate f.side r false false r t a s' w' _).trans
        (BinTree.inorder_facing_congr rfl hsib))
    · cases c with
      | nil =>
        have hroot' : root = a := hroot.symm.trans ((ptr_fill f t).trans ha.symm)
        have hnode := ((at_cons (f := ⟨f.side, r, w', u'.blacken⟩)).2 hat6).node
        rw [hroot', hnode, rb_node.facing_red]
      | cons k c =>
        have hk (g : Frame Node) (v v' : BinTree Node) :
            ptr T (plug (g :: c) v) = ptr T (plug (g :: c) v') :=
          ptr_plug_congr c (by rw [ptr_fill, ptr_fill])
        have hroot' : root = ptr T (plug c' (.facing f.side r (.facing f.side false t a s') w'
            u'.blacken)) := by
          rw [← hroot]
          rcases hcase with ⟨-, rfl⟩ | ⟨-, g, rfl⟩
          · exact hk k _ _
          · exact hk k _ _
        rw [hroot', (at_plug.1 hat6).red]
        exact hrb.1

/-! ## The repair -/

theorem fixupLoop_ends {root : Node} {o : List Node} {fuel : Nat} {x : Node}
    (he : Ends T root o x h) (hfuel : 0 < fuel) :
    ∃ t', fixupLoop T root fuel x h = some (x, h) ∧ At T (h.setRed x false) [] t' ∧
      RedBlack t' ∧ t'.inorder = o := by
  obtain ⟨t, rfl, hat, hrb, hord, hred⟩ := he
  obtain ⟨fuel, rfl⟩ : ∃ k, fuel = k + 1 := ⟨fuel - 1, by omega⟩
  refine ⟨t, ?_, ?_, hrb, hord⟩
  · simp [fixupLoop]
  · have hsame : h.setRed x false = h := by
      rw [Heap.setRed, Heap.edit, ← hred, update_eq_self]
    rw [hsame]
    exact hat

theorem fixupLoop_spec (root : Node) {n : Nat} (fuel : Nat) (hat : At T h c t)
    (hp : (h (ptr T t)).parent = up T c) (hc : Fits c (n + 1)) (ht : Short t n)
    (hroot : t.isRed = true ∨ c.length < fuel ∧ root = ptr T (plug c t)) (hfuel : 0 < fuel) :
    ∃ x t' h', fixupLoop T root fuel (ptr T t) h = some (x, h') ∧
      At T (h'.setRed x false) [] t' ∧ RedBlack t' ∧ t'.inorder = (plug c t).inorder := by
  induction fuel generalizing c t h n with
  | zero => exact absurd hfuel (Nat.lt_irrefl _)
  | succ fuel ih =>
    have hred := hat.red
    unfold fixupLoop
    by_cases hr : t.isRed = true
    · rw [hred, hr, if_neg (by simp)]
      exact ⟨_, _, h, rfl, at_plug.1 hat.blacken, ht.red hr hc,
        inorder_plug_congr c (BinTree.inorder_blacken t)⟩
    have hr' : t.isRed = false := by simpa using hr
    obtain ⟨hlen, rfl⟩ := hroot.resolve_left hr
    cases c with
    | nil =>
      rw [if_neg (by simp [plug])]
      exact ⟨_, _, h, rfl, hat.blacken, ⟨BinTree.isRed_blacken t, n,
        (BinTree.blacken_of_black hr').symm ▸ ht.black hr'⟩, BinTree.inorder_blacken t⟩
    | cons f c =>
      have hne : f.sib ≠ .nil := by
        intro hnil
        have hsib := hc.1
        rw [hnil] at hsib
        cases hsib
      have hside := hat.side_eq (.inr hne)
      obtain ⟨x', h1, hsub, hcase⟩ := deleteSub_spec hat hp hc (ht.black hr')
      rw [hred, if_pos ⟨hat.ptr_ne_root, by simp [hr']⟩]
      simp only [hp, up, hside, hsub, bind, Option.bind_some]
      have hpos : 0 < fuel :=
        Nat.lt_of_le_of_lt (Nat.zero_le c.length) (Nat.lt_of_succ_lt_succ hlen)
      rcases hcase with ⟨c', t', m, rfl, hat', hp', hc', ht', hord, hgo⟩ | he
      · obtain ⟨x, t'', h2, hloop, hat'', hrb, hord'⟩ := ih hat' hp' hc' ht'
          (hgo.imp_right fun hl => ⟨by omega, hl.2⟩) hpos
        exact ⟨x, t'', h2, hloop, hat'', hrb, hord'.trans hord⟩
      · obtain ⟨t', hloop, hat', hrb, hord⟩ := fixupLoop_ends he hpos
        exact ⟨_, t', h1, hloop, hat', hrb, hord⟩

theorem rb_delete_fixup_spec {n fuel : Nat} (hat : At T h c t)
    (hp : (h (ptr T t)).parent = up T c) (hc : Fits c (n + 1)) (ht : BlackHeight t n)
    (hfuel : c.length < fuel) :
    ∃ t' h', rb_delete_fixup T fuel (ptr T t) h = some h' ∧ At T h' [] t' ∧ RedBlack t' ∧
      t'.inorder = (plug c t).inorder := by
  have hl : (h T.root).left = ptr T (plug c t) := congrArg rb_node.left (at_plug.1 hat).hung
  obtain ⟨x, t', h', hloop, hat', hrb, hord⟩ := fixupLoop_spec (ptr T (plug c t)) fuel hat hp
    hc (short_of_blackHeight ht) (.inr ⟨hfuel, rfl⟩) (by omega)
  refine ⟨t', _, ?_, hat', hrb, hord⟩
  simp only [rb_delete_fixup, hl, hloop, bind, Option.bind_some]

/-! ## The node that leaves its place -/

@[simp] theorem Heap.setParent_red (h : Heap) (a b p : Node) :
    (h.setParent a p b).red = (h b).red := by
  by_cases hb : b = a
  · rw [hb, Heap.setParent, Heap.edit_self]
  · rw [Heap.setParent, Heap.edit_of_ne _ hb]

theorem ptr_cases (T : rb_tree) (t : BinTree Node) : ptr T t = T.nil ∨ ptr T t ∈ t.nodes := by
  by_cases h : ptr T t = T.nil
  · exact .inl h
  · exact .inr (mem_nodes_ptr h)

/-- A node with one child at most gives way to it. -/
theorem At.splice {d : Side} {red : Bool} {a : Node} (hat : At T h c (.facing d red .nil a t)) :
    ∃ h', relink .left a (ptr T t) (h.setParent (ptr T t) (up T c)) = h' ∧ At T h' c t ∧
      (h' (ptr T t)).parent = up T c ∧ h' a = h a := by
  obtain ⟨hs, hc, ha, hb⟩ := hat
  obtain ⟨hna, -, ht⟩ := shape_facing.1 hs
  have hap := ha
  simp only [BinTree.nodes_facing, BinTree.nodes_nil, Multiset.zero_add, Multiset.nodup_cons,
    Multiset.nodup_add, Multiset.mem_cons, Multiset.mem_add, not_or, Multiset.disjoint_left] at hap
  rw [ptr_facing] at hc
  have hup := up_mem (T := T) c
  have hpt := ptr_cases T t
  generalize hh1 : h.setParent (ptr T t) (up T c) = h1
  have e1 : ∀ b, b ≠ ptr T t → h1 b = h b := fun b hb => hh1 ▸ Heap.edit_of_ne _ hb
  have ht1 : Shape T h1 (up T c) t := hh1 ▸ ht.setParent (up T c) (by grind)
  have hc1 : Hung T h1 c a := hc.frame (e1 _ (by grind)) fun b hb => e1 b (by grind)
  have ha1 : h1 a = h a := e1 a (by grind)
  have hrel := relink_eq .left (ptr T t) hc1 (by rw [ha1, hna, rb_node.facing_parent])
    (by grind) (by grind)
  rw [hrel]
  generalize hh2 : h1.setChild (up T c) (sideOf c) (ptr T t) = h2
  have e2 : ∀ b, b ≠ up T c → h2 b = h1 b := fun b hb => hh2 ▸ Heap.edit_of_ne _ hb
  have s2 : h2 (up T c) = (h1 (up T c)).setChild (ptr T t) (sideOf c) := hh2 ▸ Heap.edit_self ..
  refine ⟨h2, rfl, ⟨?_, ?_, ?_, ?_⟩, ?_, ?_⟩
  · exact ht1.frame fun b hb => e2 b (by grind)
  · exact hc1.refill (Multiset.nodup_cons.2 ⟨hap.2.1.1, hap.2.2.1⟩) s2 fun b _ hbu => e2 b hbu
  · simp only [Multiset.nodup_cons, Multiset.nodup_add, Multiset.mem_cons, Multiset.mem_add,
      not_or, Multiset.disjoint_left]
    grind
  · rw [e2 _ (by grind), ← hh1, Heap.setParent_red, hb]
  · rw [e2 _ (by grind), ← hh1, Heap.setParent, Heap.edit_self]
  · rw [e2 a (by grind), ha1]

/-- `y` takes the place of `z`, with all that is in `z`. -/
theorem At.replace {red : Bool} {l r : BinTree Node} {y z : Node} (hat : At T h c (.node red l z r))
    (hy : Out T (plug c (.node red l z r)) y) (hl : l ≠ .nil) :
    ∃ h1 h2 h3, relink .left z y h = h1 ∧ h1.setParent (h1 z).right y = h2 ∧
      h2.setParent (h2 z).left y = h3 ∧ At T (update h3 y (h3 z)) c (.node red l y r) ∧
      (r = .nil → (update h3 y (h3 z) T.nil).parent = y) ∧
      (r ≠ .nil → (update h3 y (h3 z) T.nil).parent = (h T.nil).parent) := by
  obtain ⟨hs, hc, ha, hb⟩ := hat
  obtain ⟨hz, hsl, hsr⟩ := hs
  obtain ⟨hynil, hyroot, hyout⟩ := hy
  have hnodes : (BinTree.node red l z r).nodes = z ::ₘ (l.nodes + r.nodes) :=
    BinTree.nodes_facing .left red l z r
  have hap := ha
  simp only [hnodes, nodes_plug, Multiset.nodup_cons, Multiset.nodup_add, Multiset.mem_cons,
    Multiset.mem_add, not_or, Multiset.disjoint_left] at hap hyout
  have hup := up_mem (T := T) c
  have hpl : ptr T l ∈ l.nodes :=
    mem_nodes_ptr fun h => hl (eq_nil_of_ptr hap.1.2.2.2.1 h)
  have hpr := ptr_cases T r
  rw [ptr] at hc
  have hrel := relink_eq .left y hc (congrArg rb_node.parent hz) (by grind) (by grind)
  generalize hh1 : h.setChild (up T c) (sideOf c) y = h1 at hrel
  have e1 : ∀ b, b ≠ up T c → h1 b = h b := fun b hb => hh1 ▸ Heap.edit_of_ne _ hb
  have s1 : h1 (up T c) = (h (up T c)).setChild y (sideOf c) := hh1 ▸ Heap.edit_self ..
  have hz1 : h1 z = ⟨red, up T c, ptr T l, ptr T r⟩ := by rw [e1 z (by grind), hz]
  generalize hh2 : h1.setParent (ptr T r) y = h2
  have e2 : ∀ b, b ≠ ptr T r → h2 b = h1 b := fun b hb => hh2 ▸ Heap.edit_of_ne _ hb
  have hz2 : h2 z = ⟨red, up T c, ptr T l, ptr T r⟩ := by rw [e2 z (by grind), hz1]
  generalize hh3 : h2.setParent (ptr T l) y = h3
  have e3 : ∀ b, b ≠ ptr T l → h3 b = h2 b := fun b hb => hh3 ▸ Heap.edit_of_ne _ hb
  have hz3 : h3 z = ⟨red, up T c, ptr T l, ptr T r⟩ := by rw [e3 z (by grind), hz2]
  refine ⟨h1, h2, h3, hrel, by rw [hz1, hh2], by rw [hz2, hh3], ?_⟩
  rw [hz3]
  generalize hh4 : update h3 y ⟨red, up T c, ptr T l, ptr T r⟩ = h4
  have e4 : ∀ b, b ≠ y → h4 b = h3 b := fun b hb => hh4 ▸ update_of_ne hb _ _
  have s4 : h4 y = ⟨red, up T c, ptr T l, ptr T r⟩ := hh4 ▸ update_self ..
  have hnil : h4 T.nil = h2 T.nil := by rw [e4 _ (by grind), e3 _ (by grind)]
  have hrest : ∀ b, b ≠ y → b ∉ l.nodes → b ∉ r.nodes → b ≠ T.nil → h4 b = h1 b := by
    intro b hby hbl hbr hbn
    rw [e4 b hby, e3 b (by grind), e2 b (by grind)]
  refine ⟨⟨⟨s4, ?_, ?_⟩, ?_, ?_, ?_⟩, ?_, ?_⟩
  · have h2l : Shape T h2 z l := hsl.frame fun b hb => by rw [e2 b (by grind), e1 b (by grind)]
    have h3l : Shape T h3 y l := hh3 ▸ h2l.setParent y (by grind)
    exact h3l.frame fun b hb => e4 b (by grind)
  · have h1r : Shape T h1 z r := hsr.frame fun b hb => e1 b (by grind)
    have h2r : Shape T h2 y r := hh2 ▸ h1r.setParent y (by grind)
    exact h2r.frame fun b hb => by rw [e4 b (by grind), e3 b (by grind)]
  · refine hc.refill (Multiset.nodup_cons.2 ⟨hap.2.1.1, hap.2.2.1⟩) ?_ fun b hb hbu => ?_
    · rw [hrest _ (by grind) (by grind) (by grind) (by grind), s1]
      rfl
    · rw [hrest b (by grind) (by grind) (by grind) (by grind), e1 b hbu]
  · have hn : (BinTree.node red l y r).nodes = y ::ₘ (l.nodes + r.nodes) :=
      BinTree.nodes_facing .left red l y r
    simp only [hn, Multiset.nodup_cons, Multiset.nodup_add, Multiset.mem_cons, Multiset.mem_add,
      not_or, Multiset.disjoint_left]
    grind
  · rw [hnil, ← hh2, Heap.setParent_red, e1 _ (by grind), hb]
  · intro hr
    rw [hnil, ← hh2, hr, ptr, Heap.setParent, Heap.edit_self]
  · intro hr
    have hpr' : ptr T r ≠ T.nil := fun h => hr (eq_nil_of_ptr hap.1.2.2.2.2 h)
    rw [hnil, e2 _ hpr'.symm, e1 _ (by grind)]

/-- The end of the way to the side `d`. -/
theorem endLoop_spec {d : Side} {p : Node} (fuel : Nat) (hs : Shape T h p t)
    (hnil : T.nil ∉ t.nodes) (ht : t ≠ .nil) (hfuel : t.nodes.card < fuel) :
    ∃ c red y s, endLoop T d h fuel (ptr T t) = some y ∧ t = plug c (.facing d red .nil y s) ∧
      ∀ f ∈ c, f.side = d := by
  induction fuel generalizing t p with
  | zero => exact absurd hfuel (Nat.not_lt_zero _)
  | succ fuel ih =>
    obtain ⟨red, s, a, u, rfl⟩ := exists_facing ht d
    obtain ⟨ha, hs, -⟩ := shape_facing.1 hs
    rw [BinTree.nodes_facing] at hfuel hnil
    simp only [Multiset.mem_cons, Multiset.mem_add, not_or, Multiset.card_cons,
      Multiset.card_add] at hfuel hnil
    unfold endLoop
    rw [ptr_facing, ha, rb_node.facing_child]
    by_cases hsn : s = .nil
    · subst hsn
      exact ⟨[], red, a, u, if_neg (not_not.2 rfl), rfl, nofun⟩
    · have hps : ptr T s ≠ T.nil := fun h => hsn (eq_nil_of_ptr hnil.2.1 h)
      obtain ⟨c, red', y, s', hloop, rfl, hc⟩ := ih hs hnil.2.1 hsn (by omega)
      refine ⟨c ++ [⟨d, red, a, u⟩], red', y, s', ?_, ?_, ?_⟩
      · rw [if_pos hps, hloop]
      · rw [plug_append]
        rfl
      · intro f hf
        rcases List.mem_append.1 hf with hf | hf
        · exact hc f hf
        · rw [List.mem_singleton.1 hf]

/-! ## Deletion -/

/-- Once a node is out, `x` stands for it, and the repair is needed when the node was black. -/
theorem need_fixup_spec {d : Side} {red : Bool} {a : Node} {fuel : Nat} (hat : At T h c t)
    (hp : (h (ptr T t)).parent = up T c) (hrb : RedBlack (plug c (.facing d red .nil a t)))
    (hfuel : c.length < fuel) :
    ∃ t' h', (if (!red) = true then rb_delete_fixup T fuel (ptr T t) h else some h) = some h' ∧
      At T h' [] t' ∧ RedBlack t' ∧ t'.inorder = (plug c t).inorder := by
  obtain ⟨n, hc, hn, hsits⟩ := redBlack_plug.1 hrb
  cases red with
  | true =>
    obtain ⟨⟨-, ht⟩, -, hblack⟩ := blackHeight_red.1 hn
    exact ⟨_, h, rfl, at_plug.1 hat, redBlack_of_black hc ht hblack, rfl⟩
  | false =>
    obtain ⟨m, rfl, -, ht⟩ := blackHeight_black.1 hn
    exact rb_delete_fixup_spec hat hp hc ht hfuel

/-- The node leaves the order, and what it leaves stays a red-black tree. -/
theorem rb_delete_spec {z : Node} {fuel : Nat} (hat : At T h [] t) (hrb : RedBlack t)
    (hz : z ∈ t.nodes) (hfuel : t.nodes.card < fuel) :
    ∃ t' h' l₁ l₂, rb_delete T fuel z h = some h' ∧ At T h' [] t' ∧ RedBlack t' ∧
      t.inorder = l₁ ++ z :: l₂ ∧ t'.inorder = l₁ ++ l₂ := by
  obtain ⟨c, rz, l, r, rfl⟩ := exists_plug hz
  have hat := at_plug.2 hat
  have hz : h z = ⟨rz, up T c, ptr T l, ptr T r⟩ := hat.shape.1
  have hnodes : (BinTree.node rz l z r).nodes = z ::ₘ (l.nodes + r.nodes) :=
    BinTree.nodes_facing .left rz l z r
  have hap := hat.apart
  simp only [hnodes, Multiset.nodup_cons, Multiset.nodup_add, Multiset.mem_cons, Multiset.mem_add,
    not_or, Multiset.disjoint_left] at hap
  have hl : ptr T l = T.nil → l = .nil := eq_nil_of_ptr hap.1.2.2.2.1
  have hr : ptr T r = T.nil → r = .nil := eq_nil_of_ptr hap.1.2.2.2.2
  have hlen : c.length < fuel := Nat.lt_of_le_of_lt (length_le_nodes ..) hfuel
  by_cases hlr : ptr T l = T.nil ∨ ptr T r = T.nil
  · -- the node itself leaves its place
    obtain ⟨d, t, hnode, hx⟩ : ∃ d t, BinTree.node rz l z r = .facing d rz .nil z t ∧
        (if ptr T l ≠ T.nil then ptr T l else ptr T r) = ptr T t := by
      by_cases hln : ptr T l = T.nil
      · exact ⟨.left, r, by rw [hl hln]; rfl, if_neg (not_not.2 hln)⟩
      · exact ⟨.right, l, by rw [hr (hlr.resolve_left hln)]; rfl, if_pos hln⟩
    rw [hnode] at hat hrb ⊢
    obtain ⟨h1, hrel, hat1, hp1, hz1⟩ := hat.splice
    obtain ⟨t', h2, hfix, hat2, hrb2, hord⟩ := need_fixup_spec hat1 hp1 hrb hlen
    obtain ⟨l₁, l₂, hin, hout⟩ := BinTree.inorder_facing_nil d rz z t
    refine ⟨t', h2, before c ++ l₁, l₂ ++ after c, ?_, hat2, hrb2, ?_, ?_⟩
    · have hg : z ≠ T.root ∧ z ≠ T.nil := ⟨by grind, by grind⟩
      simp only [rb_delete, hz, if_pos hlr, bind, Option.bind_some, hx, guard, if_pos hg, hrel,
        hz1, ne_eq, not_true_eq_false, if_false]
      exact hfix
    · rw [inorder_plug, hin]
      simp
    · rw [hord, inorder_plug, hout]
      simp
  · -- the next node in the order leaves its place, and takes that of `z`
    have hln : ptr T l ≠ T.nil := fun h => hlr (.inl h)
    have hrn : ptr T r ≠ T.nil := fun h => hlr (.inr h)
    have hl0 : l ≠ .nil := by rintro rfl; exact hln rfl
    have hr0 : r ≠ .nil := by rintro rfl; exact hrn rfl
    have hcard : r.nodes.card < fuel := by
      rw [nodes_plug, hnodes] at hfuel
      simp only [Multiset.card_add, Multiset.card_cons] at hfuel
      omega
    obtain ⟨c₁, ry, y, s, hend, rfl, hleft⟩ :=
      endLoop_spec (d := .left) fuel hat.shape.2.2 hap.1.2.2.2.2 hr0 hcard
    have hsucc : rb_tree_successor T fuel z h = some y := by
      simp only [rb_tree_successor, hz, if_pos hrn, hend]
    have haty : At T h (c₁ ++ ⟨.right, rz, z, l⟩ :: c) (.facing .left ry .nil y s) :=
      at_append.2 (at_cons.2 hat)
    have hy := haty.node
    rw [rb_node.facing] at hy
    obtain ⟨h1, hrel, hat1, hp1, hy1⟩ := haty.splice
    simp only [nodes_plug, BinTree.nodes_facing, BinTree.nodes_nil, Multiset.zero_add,
      Multiset.nodup_add, Multiset.nodup_cons, Multiset.mem_cons, Multiset.mem_add, not_or,
      Multiset.disjoint_left] at hap
    have hyz : y ≠ z := by grind
    have hg : y ≠ T.root ∧ y ≠ T.nil := ⟨by grind, by grind⟩
    have hout : Out T (plug c (.node rz l z (plug c₁ s))) y := by
      refine ⟨hg.2, hg.1, ?_⟩
      rw [nodes_plug, show (BinTree.node rz l z (plug c₁ s)).nodes = z ::ₘ (l.nodes + _) from
        BinTree.nodes_facing .left rz l z _, nodes_plug]
      simp only [Multiset.mem_add, Multiset.mem_cons]
      grind
    have hat1' : At T h1 c (.node rz l z (plug c₁ s)) := at_cons.1 (at_append.1 hat1)
    obtain ⟨h2, h3, h4, hrel2, hset, hset', hat2, hnil, hkeep⟩ := hat1'.replace hout hl0
    generalize hh5 : update h4 y (h4 z) = h5 at hat2 hnil hkeep
    have hat5 : At T h5 (c₁ ++ ⟨.right, rz, y, l⟩ :: c) s := at_append.2 (at_cons.2 hat2)
    have hp5 : (h5 (ptr T s)).parent = up T (c₁ ++ ⟨.right, rz, y, l⟩ :: c) := by
      refine hat5.parent_or fun hs => ?_
      subst hs
      cases c₁ with
      | nil => exact hnil rfl
      | cons f c₁ =>
        have hne : plug c₁ (f.fill .nil) ≠ .nil := plug_ne_nil (f.fill_ne_nil .nil)
        exact (hkeep hne).trans hp1
    have hrb5 : RedBlack (plug (c₁ ++ ⟨.right, rz, y, l⟩ :: c) (.facing .left ry .nil y s)) := by
      rw [← redBlack_congr (a := z), plug_append]
      exact hrb
    have hlen5 : (c₁ ++ ⟨.right, rz, y, l⟩ :: c : Ctx Node).length < fuel := by
      have hle := length_le_nodes (c₁ ++ ⟨.right, rz, z, l⟩ :: c) (.facing .left ry .nil y s)
      rw [plug_append] at hle
      rw [List.length_append] at hle ⊢
      exact Nat.lt_of_le_of_lt hle hfuel
    obtain ⟨t', h6, hfix, hat6, hrb6, hord⟩ := need_fixup_spec hat5 hp5 hrb5 hlen5
    refine ⟨t', h6, before c ++ l.inorder, y :: s.inorder ++ after c₁ ++ after c, ?_, hat6, hrb6,
      ?_, ?_⟩
    · have hpn : ptr T .nil = T.nil := rfl
      simp only [rb_delete, hz, if_neg hlr, bind, Option.bind_some, hsucc, hy, hpn, ne_eq,
        not_true_eq_false, if_false, guard, if_pos hg, hrel, hy1, hrel2, hset, hset', if_pos hyz,
        hh5]
      exact hfix
    · rw [inorder_plug, BinTree.inorder, inorder_plug, before_left hleft]
      simp [BinTree.facing, BinTree.inorder]
    · rw [hord, plug_append, inorder_plug, inorder_plug, before_left hleft]
      simp [before, after]

end nehcpu.kernel.rbtree
