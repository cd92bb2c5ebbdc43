-- A tree laid out in the nodes of `rb_tree.c`, seen from any place in it. What the code does there,
-- a new colour or a rotation, is what the tree at that place becomes.
import Mathlib.Data.Multiset.UnionInter
import Nehcpu.Kernel.RbTree

namespace nehcpu.kernel.rbtree

open redblack Function

/-! ## Fields -/

/-- A node with the child `s` on the side `d` and `t` across. -/
def rb_node.facing : Side → Bool → Node → Node → Node → rb_node
  | .left, red, p, s, t => ⟨red, p, s, t⟩
  | .right, red, p, s, t => ⟨red, p, t, s⟩

theorem rb_node.facing_flip (d : Side) (red : Bool) (p s t : Node) :
    rb_node.facing d.flip red p s t = .facing d red p t s := by cases d <;> rfl

@[simp] theorem rb_node.facing_red (d : Side) (red : Bool) (p s t : Node) :
    (rb_node.facing d red p s t).red = red := by cases d <;> rfl

@[simp] theorem rb_node.facing_parent (d : Side) (red : Bool) (p s t : Node) :
    (rb_node.facing d red p s t).parent = p := by cases d <;> rfl

@[simp] theorem rb_node.facing_child (d : Side) (red : Bool) (p s t : Node) :
    (rb_node.facing d red p s t).child d = s := by cases d <;> rfl

@[simp] theorem rb_node.facing_child_flip (d : Side) (red : Bool) (p s t : Node) :
    (rb_node.facing d red p s t).child d.flip = t := by cases d <;> rfl

@[simp] theorem rb_node.facing_setRed (d : Side) (red red' : Bool) (p s t : Node) :
    { rb_node.facing d red p s t with red := red' } = .facing d red' p s t := by cases d <;> rfl

@[simp] theorem rb_node.facing_setParent (d : Side) (red : Bool) (p q s t : Node) :
    { rb_node.facing d red p s t with parent := q } = .facing d red q s t := by cases d <;> rfl

@[simp] theorem rb_node.facing_setChild (d : Side) (red : Bool) (p s t b : Node) :
    (rb_node.facing d red p s t).setChild b d = .facing d red p b t := by cases d <;> rfl

@[simp] theorem rb_node.facing_setChild_flip (d : Side) (red : Bool) (p s t b : Node) :
    (rb_node.facing d red p s t).setChild b d.flip = .facing d red p s b := by cases d <;> rfl

variable {T : rb_tree} {h h' : Heap}

theorem Heap.edit_of_ne {a b : Node} (f : rb_node → rb_node) (hb : b ≠ a) :
    (h.edit a f) b = h b := update_of_ne hb _ _

theorem Heap.edit_self (a : Node) (f : rb_node → rb_node) : (h.edit a f) a = f (h a) :=
  update_self ..

/-! ## Trees in memory -/

def ptr (T : rb_tree) : BinTree Node → Node
  | .nil => T.nil
  | .node _ _ a _ => a

@[simp] theorem ptr_facing (d : Side) (red : Bool) (s : BinTree Node) (a : Node)
    (t : BinTree Node) :
    ptr T (.facing d red s a t) = a := by cases d <;> rfl

@[simp] theorem ptr_fill (f : Frame Node) (t : BinTree Node) : ptr T (f.fill t) = f.a :=
  ptr_facing ..

@[simp] theorem ptr_blacken (t : BinTree Node) : ptr T t.blacken = ptr T t := by cases t <;> rfl

theorem ptr_plug_congr (c : Ctx Node) {t t' : BinTree Node} (h : ptr T t = ptr T t') :
    ptr T (plug c t) = ptr T (plug c t') := by
  induction c generalizing t t' with
  | nil => exact h
  | cons f c ih => exact ih (by rw [ptr_fill, ptr_fill])

/-- The node above a hole, and the side of it that the hole is on: the tree as a whole is to the
left of the record above it. -/
def up (T : rb_tree) : Ctx Node → Node
  | [] => T.root
  | f :: _ => f.a

def sideOf : Ctx Node → Side
  | [] => .left
  | f :: _ => f.side

/-- The nodes of the subtree, below `p`. -/
def Shape (T : rb_tree) (h : Heap) : Node → BinTree Node → Prop
  | _, .nil => True
  | p, .node red l a r =>
    h a = ⟨red, p, ptr T l, ptr T r⟩ ∧ Shape T h a l ∧ Shape T h a r

/-- The nodes around a hole, in which they have `x`. -/
def Hung (T : rb_tree) (h : Heap) : Ctx Node → Node → Prop
  | [], x => h T.root = ⟨false, T.nil, x, T.nil⟩
  | f :: c, x =>
    h f.a = .facing f.side f.red (up T c) x (ptr T f.sib) ∧ Shape T h f.a f.sib ∧ Hung T h c f.a

theorem shape_facing {d : Side} {red : Bool} {p a : Node} {s t : BinTree Node} :
    Shape T h p (.facing d red s a t) ↔
      h a = .facing d red p (ptr T s) (ptr T t) ∧ Shape T h a s ∧ Shape T h a t := by
  cases d with
  | left => rfl
  | right =>
    simp only [BinTree.facing, Shape, rb_node.facing]
    exact and_congr_right fun _ => and_comm

theorem Shape.frame {p : Node} {t : BinTree Node} (hs : Shape T h p t)
    (heq : ∀ b ∈ t.nodes, h' b = h b) : Shape T h' p t := by
  induction t generalizing p with
  | nil => trivial
  | node red l a r ihl ihr =>
    have hn : (BinTree.node red l a r).nodes = a ::ₘ (l.nodes + r.nodes) :=
      BinTree.nodes_facing .left red l a r
    simp only [hn, Multiset.mem_cons, Multiset.mem_add] at heq
    obtain ⟨ha, hl, hr⟩ := hs
    exact ⟨(heq a (.inl rfl)).trans ha, ihl hl fun b hb => heq b (.inr (.inl hb)),
      ihr hr fun b hb => heq b (.inr (.inr hb))⟩

theorem Hung.frame {c : Ctx Node} {x : Node} (hc : Hung T h c x) (hroot : h' T.root = h T.root)
    (heq : ∀ b ∈ ctxNodes c, h' b = h b) : Hung T h' c x := by
  induction c generalizing x with
  | nil => exact hroot.trans hc
  | cons f c ih =>
    simp only [ctxNodes, Multiset.mem_cons, Multiset.mem_add] at heq
    obtain ⟨hf, hs, hc⟩ := hc
    exact ⟨(heq f.a (.inl rfl)).trans hf, hs.frame fun b hb => heq b (.inr (.inl hb)),
      ih hc fun b hb => heq b (.inr (.inr hb))⟩

/-- The tree `t` in the hole of `c`, each node in it once and apart from the two records of the
tree, and `nil` black. -/
structure At (T : rb_tree) (h : Heap) (c : Ctx Node) (t : BinTree Node) : Prop where
  shape : Shape T h (up T c) t
  hung : Hung T h c (ptr T t)
  apart : (T.nil ::ₘ T.root ::ₘ (ctxNodes c + t.nodes)).Nodup
  nil_black : (h T.nil).red = false

/-- A node that is not in the tree, nor one of its two records. -/
def Out (T : rb_tree) (t : BinTree Node) (z : Node) : Prop := z ≠ T.nil ∧ z ≠ T.root ∧ z ∉ t.nodes

/-- The same tree, seen from one step further up. -/
theorem at_cons {f : Frame Node} {c : Ctx Node} {t : BinTree Node} :
    At T h (f :: c) t ↔ At T h c (f.fill t) := by
  have hn : ctxNodes (f :: c) + t.nodes = ctxNodes c + (f.fill t).nodes := by
    rw [← nodes_plug, ← nodes_plug]
    rfl
  constructor
  · rintro ⟨hs, ⟨hf, hsib, hc⟩, ha, hb⟩
    exact ⟨shape_facing.2 ⟨hf, hs, hsib⟩, by rwa [Frame.fill, ptr_facing], hn ▸ ha, hb⟩
  · rintro ⟨hs, hc, ha, hb⟩
    obtain ⟨hf, hs, hsib⟩ := shape_facing.1 hs
    rw [Frame.fill, ptr_facing] at hc
    exact ⟨hs, ⟨hf, hsib, hc⟩, hn.symm ▸ ha, hb⟩

theorem at_append {c c' : Ctx Node} {t : BinTree Node} :
    At T h (c ++ c') t ↔ At T h c' (plug c t) := by
  induction c generalizing t with
  | nil => rfl
  | cons f c ih => rw [List.cons_append, at_cons, ih, plug]

theorem at_plug {c : Ctx Node} {t : BinTree Node} : At T h c t ↔ At T h [] (plug c t) := by
  rw [← at_append, List.append_nil]

/-- The same tree, seen from the subtree across. -/
theorem at_swap {d : Side} {red : Bool} {a : Node} {c : Ctx Node} {s t : BinTree Node} :
    At T h (⟨d, red, a, s⟩ :: c) t ↔ At T h (⟨d.flip, red, a, t⟩ :: c) s := by
  rw [at_cons, at_cons, Frame.fill, Frame.fill, BinTree.facing_flip]

variable {c : Ctx Node} {t : BinTree Node}

/-- What the code reads at the node where it is. -/
theorem At.node {d : Side} {red : Bool} {a : Node} {s u : BinTree Node}
    (hat : At T h c (.facing d red s a u)) :
    h a = .facing d red (up T c) (ptr T s) (ptr T u) := (shape_facing.1 hat.shape).1

theorem At.red (hat : At T h c t) : (h (ptr T t)).red = t.isRed := by
  cases t with
  | nil => exact hat.nil_black
  | node red l a r => exact congrArg rb_node.red hat.shape.1

theorem mem_nodes_ptr (h : ptr T t ≠ T.nil) : ptr T t ∈ t.nodes := by
  cases t with
  | nil => exact absurd rfl h
  | node red l a r => simp [ptr, BinTree.nodes, BinTree.inorder]

theorem eq_nil_of_ptr (hn : T.nil ∉ t.nodes) (h : ptr T t = T.nil) : t = .nil := by
  cases t with
  | nil => rfl
  | node red l a r =>
    have ha : a = T.nil := h
    exact absurd (ha ▸ by simp [BinTree.nodes, BinTree.inorder]) hn

theorem At.parent (hat : At T h c t) (ht : t ≠ .nil) : (h (ptr T t)).parent = up T c := by
  cases t with
  | nil => exact absurd rfl ht
  | node red l a r => exact congrArg rb_node.parent hat.shape.1

theorem At.up_parent {f : Frame Node} (hat : At T h (f :: c) t) : (h f.a).parent = up T c := by
  rw [(at_cons.1 hat).node, rb_node.facing_parent]

theorem At.nil_out (hat : At T h c t) : T.nil ∉ t.nodes := fun hm =>
  (Multiset.nodup_cons.1 hat.apart).1 (by simp [hm])

theorem At.inorder_nodup (hat : At T h c t) : t.inorder.Nodup := by
  have hap := hat.apart
  simp only [Multiset.nodup_cons, Multiset.nodup_add] at hap
  exact hap.2.2.2.1

/-- Two subtrees side by side, not both empty, have different roots. -/
theorem At.ptr_ne {f : Frame Node} (hat : At T h (f :: c) t) (hne : t ≠ .nil ∨ f.sib ≠ .nil) :
    ptr T t ≠ ptr T f.sib := by
  intro heq
  have hsib : T.nil ∉ f.sib.nodes := At.nil_out (at_swap.1 hat)
  by_cases ht : t = .nil
  · have hs : f.sib = .nil := eq_nil_of_ptr hsib (heq ▸ ht ▸ rfl)
    exact hne.elim (absurd ht) (absurd hs)
  · have hp : ptr T t ≠ T.nil := fun hp => ht (eq_nil_of_ptr hat.nil_out hp)
    have h1 : ptr T t ∈ t.nodes := mem_nodes_ptr hp
    have h2 : ptr T t ∈ f.sib.nodes := heq ▸ mem_nodes_ptr (heq ▸ hp)
    have hap := hat.apart
    simp only [ctxNodes, Multiset.nodup_cons, Multiset.nodup_add, Multiset.mem_cons,
      Multiset.mem_add, not_or, Multiset.disjoint_left] at hap
    grind

theorem ptr_plug_mem (f : Frame Node) (c : Ctx Node) (t : BinTree Node) :
    ptr T (plug (f :: c) t) ∈ ctxNodes (f :: c) := by
  induction c generalizing f t with
  | nil => simp [plug, ctxNodes]
  | cons g c ih =>
    rw [plug, ctxNodes]
    exact Multiset.mem_cons_of_mem (Multiset.mem_add.2 (.inr (ih g _)))

theorem At.ptr_ne_root {f : Frame Node} (hat : At T h (f :: c) t) :
    ptr T t ≠ ptr T (plug (f :: c) t) := by
  intro heq
  have hm : ptr T t ∈ ctxNodes (f :: c) := heq ▸ ptr_plug_mem f c t
  have hap := hat.apart
  simp only [Multiset.nodup_cons, Multiset.nodup_add, Multiset.mem_cons, Multiset.mem_add, not_or,
    Multiset.disjoint_left] at hap
  by_cases ht : ptr T t = T.nil
  · exact hap.1.2.1 (ht ▸ hm)
  · exact hap.2.2.2.2 hm (mem_nodes_ptr ht)

/-- The side of a hole, as the loops find it. -/
theorem At.side_eq {f : Frame Node} (hat : At T h (f :: c) t) (hne : t ≠ .nil ∨ f.sib ≠ .nil) :
    (if ptr T t = (h f.a).left then Side.left else .right) = f.side := by
  obtain ⟨d, red, a, s⟩ := f
  have ha : h a = .facing d red (up T c) (ptr T t) (ptr T s) := (at_cons.1 hat).node
  rw [ha]
  cases d with
  | left => exact if_pos rfl
  | right => exact if_neg (hat.ptr_ne hne)

/-- The node above a hole is one of the tree, or the record above it. -/
theorem up_mem (c : Ctx Node) : up T c = T.root ∨ up T c ∈ ctxNodes c := by
  cases c with
  | nil => exact .inl rfl
  | cons f c => exact .inr (Multiset.mem_cons_self ..)

/-! ## A new colour -/

theorem At.setRed {d : Side} {red : Bool} {a : Node} {s u : BinTree Node}
    (hat : At T h c (.facing d red s a u)) (red' : Bool) :
    At T (h.setRed a red') c (.facing d red' s a u) := by
  obtain ⟨hs, hc, ha, hb⟩ := hat
  obtain ⟨hna, hsa, hua⟩ := shape_facing.1 hs
  have hne : ∀ b, b ≠ a → (h.setRed a red') b = h b := fun b => Heap.edit_of_ne _
  have hap := ha
  simp only [BinTree.nodes_facing, Multiset.nodup_cons, Multiset.nodup_add, Multiset.mem_cons,
    Multiset.mem_add, not_or, Multiset.disjoint_left] at hap
  refine ⟨shape_facing.2 ⟨?_, ?_, ?_⟩, ?_, by simpa using ha, ?_⟩
  · rw [Heap.setRed, Heap.edit_self, hna, rb_node.facing_setRed]
  · exact hsa.frame fun b hb' => hne b (by grind)
  · exact hua.frame fun b hb' => hne b (by grind)
  · rw [ptr_facing] at hc ⊢
    exact hc.frame (hne _ (by grind)) fun b hb' => hne b (by grind)
  · rw [hne _ (by grind)]
    exact hb

/-- The same for a subtree that may be empty: `nil` is black already. -/
theorem At.blacken (hat : At T h c t) : At T (h.setRed (ptr T t) false) c t.blacken := by
  cases t with
  | node red l a r => exact At.setRed (d := .left) hat false
  | nil =>
    have hb : h.setRed T.nil false = h := by
      rw [Heap.setRed, Heap.edit, ← hat.nil_black, update_eq_self]
    rw [ptr, hb]
    exact hat

theorem At.setRed_up {f : Frame Node} (hat : At T h (f :: c) t) (red' : Bool) :
    At T (h.setRed f.a red') ({ f with red := red' } :: c) t :=
  at_cons.2 ((at_cons.1 hat).setRed red')

theorem At.blacken_sib {f : Frame Node} (hat : At T h (f :: c) t) :
    At T (h.setRed (ptr T f.sib) false) ({ f with sib := f.sib.blacken } :: c) t :=
  at_swap.2 (at_swap.1 hat).blacken

/-! ## A new child -/

/-- The hole has `y` in it once the node above it has. -/
theorem Hung.refill {x y : Node} (hc : Hung T h c x) (hn : (T.root ::ₘ ctxNodes c).Nodup)
    (hup : h' (up T c) = (h (up T c)).setChild y (sideOf c))
    (heq : ∀ b, b = T.root ∨ b ∈ ctxNodes c → b ≠ up T c → h' b = h b) : Hung T h' c y := by
  cases c with
  | nil =>
    have hr : h T.root = ⟨false, T.nil, x, T.nil⟩ := hc
    exact hup.trans (by rw [up, hr]; rfl)
  | cons f c =>
    obtain ⟨hf, hs, hc⟩ := hc
    simp only [ctxNodes, Multiset.nodup_cons, Multiset.mem_cons, Multiset.mem_add, not_or] at hn
    simp only [ctxNodes, Multiset.mem_cons, Multiset.mem_add, up] at heq
    refine ⟨?_, hs.frame fun b hb => heq b (by grind) (by grind),
      hc.frame (heq _ (by grind) (by grind)) fun b hb => heq b (by grind) (by grind)⟩
    rw [show h' f.a = _ from hup, up, hf, sideOf, rb_node.facing_setChild]

/-- `relink` finds the side of the hole, whichever it tries first. -/
theorem relink_eq {a : Node} (d : Side) (b : Node) (hc : Hung T h c a)
    (hp : (h a).parent = up T c) (hnil : a ≠ T.nil) (hout : a ∉ ctxNodes c) :
    relink d a b h = h.setChild (up T c) (sideOf c) b := by
  unfold relink
  rw [hp]
  cases c with
  | nil =>
    have hr : h T.root = ⟨false, T.nil, a, T.nil⟩ := hc
    rw [up, hr]
    cases d with
    | left => exact if_pos rfl
    | right => exact if_neg hnil
  | cons f c =>
    rw [up, hc.1]
    by_cases hd : d = f.side
    · rw [hd, rb_node.facing_child, if_pos rfl]
      rfl
    · rw [Side.eq_flip_of_ne hd, rb_node.facing_child_flip, Side.flip_flip, if_neg]
      · rfl
      · intro ha
        have hs : ptr T f.sib ∈ f.sib.nodes := mem_nodes_ptr (ha ▸ hnil)
        exact hout (by rw [ctxNodes, ha]; simp [hs])

/-- A subtree below another node. -/
theorem Shape.setParent {p : Node} (q : Node) (hs : Shape T h p t) (hn : t.nodes.Nodup) :
    Shape T (h.setParent (ptr T t) q) q t := by
  cases t with
  | nil => trivial
  | node red l a r =>
    have hnodes : (BinTree.node red l a r).nodes = a ::ₘ (l.nodes + r.nodes) :=
      BinTree.nodes_facing .left red l a r
    simp only [hnodes, Multiset.nodup_cons, Multiset.mem_add, not_or] at hn
    have hne : ∀ b, b ≠ a → (h.setParent a q) b = h b := fun b => Heap.edit_of_ne _
    obtain ⟨ha, hl, hr⟩ := hs
    refine ⟨?_, hl.frame fun b hb => hne b (by grind), hr.frame fun b hb => hne b (by grind)⟩
    rw [ptr, Heap.setParent, Heap.edit_self, ha]

/-! ## A rotation -/

theorem At.rotates {d : Side} {rx ry : Bool} {x y : Node} {A B C : BinTree Node}
    (hat : At T h c (.facing d rx A x (.facing d ry B y C))) :
    ∃ h', rotate T d x h = some h' ∧
      At T h' c (.facing d ry (.facing d rx A x B) y C) ∧ h' T.nil = h T.nil := by
  obtain ⟨hs, hc, ha, hb⟩ := hat
  obtain ⟨hx, hA, hs⟩ := shape_facing.1 hs
  obtain ⟨hy, hB, hC⟩ := shape_facing.1 hs
  have hap := ha
  simp only [BinTree.nodes_facing, Multiset.nodup_cons, Multiset.nodup_add, Multiset.mem_cons,
    Multiset.mem_add, not_or, Multiset.disjoint_left] at hap
  rw [ptr_facing] at hx hc
  have hup := up_mem (T := T) c
  -- the heap after each of the six writes
  generalize hh1 : h.setChild x d.flip (ptr T B) = h1
  generalize hh2 : (if ptr T B ≠ T.nil then h1.setParent (ptr T B) x else h1) = h2
  generalize hh3 : h2.setParent y (up T c) = h3
  generalize hh4 : h3.setChild (up T c) (sideOf c) y = h4
  generalize hh5 : h4.setChild y d x = h5
  generalize hh6 : h5.setParent x y = h6
  have e1 : ∀ b, b ≠ x → h1 b = h b := fun b hb => hh1 ▸ Heap.edit_of_ne _ hb
  have e2 : ∀ b, b ∉ B.nodes → h2 b = h1 b := by
    intro b hb
    rw [← hh2]
    split
    · have hm : ptr T B ∈ B.nodes := mem_nodes_ptr ‹_›
      exact Heap.edit_of_ne _ (by grind)
    · rfl
  have e3 : ∀ b, b ≠ y → h3 b = h2 b := fun b hb => hh3 ▸ Heap.edit_of_ne _ hb
  have e4 : ∀ b, b ≠ up T c → h4 b = h3 b := fun b hb => hh4 ▸ Heap.edit_of_ne _ hb
  have e5 : ∀ b, b ≠ y → h5 b = h4 b := fun b hb => hh5 ▸ Heap.edit_of_ne _ hb
  have e6 : ∀ b, b ≠ x → h6 b = h5 b := fun b hb => hh6 ▸ Heap.edit_of_ne _ hb
  have s1 : h1 x = (h x).setChild (ptr T B) d.flip := hh1 ▸ Heap.edit_self ..
  have s3 : h3 y = { h2 y with parent := up T c } := hh3 ▸ Heap.edit_self ..
  have s4 : h4 (up T c) = (h3 (up T c)).setChild y (sideOf c) := hh4 ▸ Heap.edit_self ..
  have s5 : h5 y = (h4 y).setChild x d := hh5 ▸ Heap.edit_self ..
  have s6 : h6 x = { h5 x with parent := y } := hh6 ▸ Heap.edit_self ..
  -- all but the three nodes at the rotation and the subtree between them stay as they are
  have hrest : ∀ b, b ≠ x → b ≠ y → b ≠ up T c → b ∉ B.nodes → h6 b = h b := by
    intro b hbx hby hbu hbB
    rw [e6 b hbx, e5 b hby, e4 b hbu, e3 b hby, e2 b hbB, e1 b hbx]
  have hx2 : h2 x = .facing d rx (up T c) (ptr T A) (ptr T B) := by
    rw [e2 x (by grind), s1, hx, rb_node.facing_setChild_flip]
  have hx6 : h6 x = .facing d rx y (ptr T A) (ptr T B) := by
    rw [s6, e5 x (by grind), e4 x (by grind), e3 x (by grind), hx2, rb_node.facing_setParent]
  have hy1 : h1 y = .facing d ry x (ptr T B) (ptr T C) := by rw [e1 y (by grind), hy]
  have hy6 : h6 y = .facing d ry (up T c) x (ptr T C) := by
    rw [e6 y (by grind), s5, e4 y (by grind), s3, e2 y (by grind), hy1,
      rb_node.facing_setParent, rb_node.facing_setChild]
  have hB6 : Shape T h6 x B := by
    have hB1 : Shape T h1 y B := hB.frame fun b hb => e1 b (by grind)
    have hB2 : Shape T h2 x B := by
      rw [← hh2]
      split
      · exact hB1.setParent x (by grind)
      next hne =>
        have hB0 : B = .nil := eq_nil_of_ptr hap.1.2.2.2.2.2.1 (not_not.1 hne)
        rw [hB0]
        trivial
    refine hB2.frame fun b hb => ?_
    rw [e6 b (by grind), e5 b (by grind), e4 b (by grind), e3 b (by grind)]
  have hc3 : Hung T h3 c x := by
    have heq : ∀ b, b = T.root ∨ b ∈ ctxNodes c → h3 b = h b := by
      intro b hb
      rw [e3 b (by grind), e2 b (by grind), e1 b (by grind)]
    exact hc.frame (heq _ (.inl rfl)) fun b hb => heq b (.inr hb)
  have hc6 : Hung T h6 c y := by
    refine hc3.refill (Multiset.nodup_cons.2 ⟨hap.2.1.1, hap.2.2.1⟩) ?_ fun b hb hbu => ?_
    · rw [e6 _ (by grind), e5 _ (by grind), s4]
    · rw [e6 b (by grind), e5 b (by grind), e4 b hbu]
  have hnil : h6 T.nil = h T.nil := hrest _ (by grind) (by grind) (by grind) (by grind)
  refine ⟨h6, ?_, ⟨shape_facing.2 ⟨?_, shape_facing.2 ⟨hx6, ?_, hB6⟩, ?_⟩, ?_, ?_, ?_⟩, hnil⟩
  · have hg : x ≠ T.root ∧ x ≠ T.nil ∧ y ≠ T.nil := ⟨by grind, by grind, by grind⟩
    have hp : (h3 x).parent = up T c := by rw [e3 x (by grind), hx2, rb_node.facing_parent]
    have hrel : relink d x y h3 = h4 := hh4 ▸ relink_eq d y hc3 hp (by grind) (by grind)
    have hb6 : (h6 T.nil).red = false := by rw [hnil, hb]
    simp only [rotate, hx, rb_node.facing_child_flip, hy, rb_node.facing_child, hh1, hy1, hh2, hx2,
      rb_node.facing_parent, hh3, hrel, hh5, hh6, guard, if_pos hg, if_pos hb6]
    rfl
  · rw [hy6, ptr_facing]
  · exact hA.frame fun b hb => hrest b (by grind) (by grind) (by grind) (by grind)
  · exact hC.frame fun b hb => hrest b (by grind) (by grind) (by grind) (by grind)
  · rw [ptr_facing]
    exact hc6
  · have hn := congrArg Multiset.ofList (BinTree.inorder_rotate d rx ry rx ry A x B y C)
    exact (show BinTree.nodes _ = BinTree.nodes _ from hn) ▸ ha
  · rw [hnil]
    exact hb

end nehcpu.kernel.rbtree
