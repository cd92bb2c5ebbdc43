-- Red-black trees, and the tree around a hole in them, for code that goes up and down in a tree
-- and turns it where it stands. A side says which way the code faces, so that a case and its
-- mirror image are one. Nothing here knows what the nodes are or how they are stored.
import Mathlib.Algebra.Ring.Nat
import Mathlib.Data.List.Sort
import Mathlib.Data.Multiset.AddSub
import Mathlib.Data.Nat.Log

namespace nehcpu.redblack

variable {α : Type*}

/-! ## Trees and their sides -/

inductive Side
  | left
  | right
deriving DecidableEq, Repr

def Side.flip : Side → Side
  | left => right
  | right => left

@[simp] theorem Side.flip_flip (d : Side) : d.flip.flip = d := by cases d <;> rfl

@[simp] theorem Side.flip_ne (d : Side) : d.flip ≠ d := by cases d <;> decide

theorem Side.eq_flip_of_ne {d e : Side} (h : e ≠ d) : e = d.flip := by
  cases d <;> cases e <;> simp_all [Side.flip]

inductive BinTree (α : Type*)
  | nil
  | node (red : Bool) (left : BinTree α) (a : α) (right : BinTree α)

namespace BinTree

/-- The node `a` with `s` on the side `d` of it and `t` across. -/
def facing : Side → Bool → BinTree α → α → BinTree α → BinTree α
  | .left, red, s, a, t => node red s a t
  | .right, red, s, a, t => node red t a s

theorem facing_flip (d : Side) (red : Bool) (s : BinTree α) (a : α) (t : BinTree α) :
    facing d.flip red s a t = facing d red t a s := by cases d <;> rfl

def isRed : BinTree α → Bool
  | nil => false
  | node red _ _ _ => red

def blacken : BinTree α → BinTree α
  | nil => nil
  | node _ l a r => node false l a r

def inorder : BinTree α → List α
  | nil => []
  | node _ l a r => inorder l ++ a :: inorder r

def nodes (t : BinTree α) : Multiset α := t.inorder

@[simp] theorem isRed_facing (d : Side) (red : Bool) (s : BinTree α) (a : α) (t : BinTree α) :
    (facing d red s a t).isRed = red := by cases d <;> rfl

@[simp] theorem isRed_blacken (t : BinTree α) : t.blacken.isRed = false := by cases t <;> rfl

@[simp] theorem blacken_facing (d : Side) (red : Bool) (s : BinTree α) (a : α) (t : BinTree α) :
    (facing d red s a t).blacken = facing d false s a t := by cases d <;> rfl

theorem blacken_of_black {t : BinTree α} (h : t.isRed = false) : t.blacken = t := by
  cases t with
  | nil => rfl
  | node red l a r => cases h; rfl

@[simp] theorem inorder_blacken (t : BinTree α) : t.blacken.inorder = t.inorder := by
  cases t <;> rfl

/-- Colours do not matter for the order. -/
theorem inorder_recolour (d : Side) (red red' : Bool) (s : BinTree α) (a : α) (t : BinTree α) :
    (facing d red s a t).inorder = (facing d red' s a t).inorder := by cases d <;> rfl

theorem inorder_facing_congr {d : Side} {red red' : Bool} {s s' t t' : BinTree α} {a : α}
    (hs : s.inorder = s'.inorder) (ht : t.inorder = t'.inorder) :
    (facing d red s a t).inorder = (facing d red' s' a t').inorder := by
  cases d <;> simp only [facing, inorder, hs, ht]

/-- A rotation keeps the order. -/
theorem inorder_rotate (d : Side) (rx ry rx' ry' : Bool) (s : BinTree α) (x : α) (t : BinTree α)
    (y : α) (u : BinTree α) :
    (facing d ry' (facing d rx' s x t) y u).inorder =
      (facing d rx s x (facing d ry t y u)).inorder := by
  cases d <;> simp [facing, inorder]

theorem inorder_facing_nil (d : Side) (red : Bool) (a : α) (t : BinTree α) :
    ∃ l₁ l₂, (facing d red .nil a t).inorder = l₁ ++ a :: l₂ ∧ t.inorder = l₁ ++ l₂ := by
  cases d with
  | left => exact ⟨[], t.inorder, rfl, rfl⟩
  | right => exact ⟨t.inorder, [], rfl, (List.append_nil _).symm⟩

@[simp] theorem nodes_nil : (nil : BinTree α).nodes = 0 := rfl

@[simp] theorem nodes_facing (d : Side) (red : Bool) (s : BinTree α) (a : α) (t : BinTree α) :
    (facing d red s a t).nodes = a ::ₘ (s.nodes + t.nodes) := by
  cases d <;>
    simp [facing, nodes, inorder, ← Multiset.coe_add, ← Multiset.cons_coe, Multiset.add_comm]

end BinTree

/-! ## The tree around a hole -/

/-- One step up from a hole: the node there, the side of it that the hole is on, and the subtree
across. -/
structure Frame (α : Type*) where
  side : Side
  red : Bool
  a : α
  sib : BinTree α

/-- The steps from a hole up to the root. -/
abbrev Ctx (α : Type*) := List (Frame α)

def Frame.fill (f : Frame α) (t : BinTree α) : BinTree α := .facing f.side f.red t f.a f.sib

theorem Frame.fill_ne_nil (f : Frame α) (t : BinTree α) : f.fill t ≠ .nil := by
  obtain ⟨d, red, a, s⟩ := f
  cases d <;> exact nofun

def plug : Ctx α → BinTree α → BinTree α
  | [], t => t
  | f :: c, t => plug c (f.fill t)

theorem plug_ne_nil {c : Ctx α} {t : BinTree α} (h : t ≠ .nil) : plug c t ≠ .nil := by
  induction c generalizing t with
  | nil => exact h
  | cons f c ih => exact ih (f.fill_ne_nil t)

/-- What stands before the hole, and after it. -/
def before : Ctx α → List α
  | [] => []
  | ⟨.left, _, _, _⟩ :: c => before c
  | ⟨.right, _, a, s⟩ :: c => before c ++ s.inorder ++ [a]

def after : Ctx α → List α
  | [] => []
  | ⟨.left, _, a, s⟩ :: c => a :: s.inorder ++ after c
  | ⟨.right, _, _, _⟩ :: c => after c

def ctxNodes : Ctx α → Multiset α
  | [] => 0
  | f :: c => f.a ::ₘ (f.sib.nodes + ctxNodes c)

theorem inorder_plug (c : Ctx α) (t : BinTree α) :
    (plug c t).inorder = before c ++ t.inorder ++ after c := by
  induction c generalizing t with
  | nil => simp [plug, before, after]
  | cons f c ih =>
    obtain ⟨d, red, a, s⟩ := f
    cases d with
    | left => simp [plug, ih, Frame.fill, BinTree.facing, BinTree.inorder, before, after]
    | right => simp [plug, ih, Frame.fill, BinTree.facing, BinTree.inorder, before, after]

theorem nodes_plug (c : Ctx α) (t : BinTree α) : (plug c t).nodes = ctxNodes c + t.nodes := by
  induction c generalizing t with
  | nil => simp [plug, ctxNodes]
  | cons f c ih =>
    rw [plug, ih, Frame.fill, BinTree.nodes_facing, ctxNodes]
    simp only [Multiset.add_cons, Multiset.cons_add]
    rw [Multiset.add_comm f.sib.nodes, Multiset.add_assoc, Multiset.add_comm f.sib.nodes]

theorem plug_append (c c' : Ctx α) (t : BinTree α) : plug (c ++ c') t = plug c' (plug c t) := by
  induction c generalizing t with
  | nil => rfl
  | cons f c ih => exact ih _

/-- Nothing comes before a hole that is to the left of all nodes around it. -/
theorem before_left {c : Ctx α} (h : ∀ f ∈ c, f.side = .left) : before c = [] := by
  induction c with
  | nil => rfl
  | cons f c ih =>
    obtain ⟨d, red, a, s⟩ := f
    obtain rfl : d = .left := h _ (List.mem_cons_self ..)
    exact ih fun f hf => h f (List.mem_cons_of_mem _ hf)

/-- Every node is somewhere in its tree. -/
theorem exists_plug {t : BinTree α} {a : α} (h : a ∈ t.nodes) :
    ∃ c red l r, t = plug c (.node red l a r) := by
  induction t with
  | nil => exact absurd h (Multiset.notMem_zero a)
  | node red l b r ihl ihr =>
    have hn : (BinTree.node red l b r).nodes = b ::ₘ (l.nodes + r.nodes) :=
      BinTree.nodes_facing .left red l b r
    simp only [hn, Multiset.mem_cons, Multiset.mem_add] at h
    rcases h with rfl | h | h
    · exact ⟨[], red, l, r, rfl⟩
    · obtain ⟨c, red', l', r', rfl⟩ := ihl h
      exact ⟨c ++ [⟨.left, red, b, r⟩], red', l', r', (plug_append ..).symm ▸ rfl⟩
    · obtain ⟨c, red', l', r', rfl⟩ := ihr h
      exact ⟨c ++ [⟨.right, red, b, l⟩], red', l', r', (plug_append ..).symm ▸ rfl⟩

theorem length_le_nodes (c : Ctx α) (t : BinTree α) : c.length ≤ (plug c t).nodes.card := by
  rw [nodes_plug]
  induction c with
  | nil => exact Nat.zero_le _
  | cons f c ih =>
    simp only [ctxNodes, List.length_cons, Multiset.card_add, Multiset.card_cons] at ih ⊢
    omega

/-! ## Red-black trees -/

/-- No red node has a red child, and `n` black nodes stand on every way down. -/
def BlackHeight : BinTree α → Nat → Prop
  | .nil, n => n = 0
  | .node true l _ r, n => (BlackHeight l n ∧ BlackHeight r n) ∧ l.isRed = false ∧ r.isRed = false
  | .node false l _ r, n => ∃ m, n = m + 1 ∧ BlackHeight l m ∧ BlackHeight r m

def RedBlack (t : BinTree α) : Prop := t.isRed = false ∧ ∃ n, BlackHeight t n

@[simp] theorem blackHeight_nil {n : Nat} : BlackHeight (.nil : BinTree α) n ↔ n = 0 := Iff.rfl

@[simp] theorem blackHeight_red {d : Side} {s t : BinTree α} {a : α} {n : Nat} :
    BlackHeight (.facing d true s a t) n ↔
      (BlackHeight s n ∧ BlackHeight t n) ∧ s.isRed = false ∧ t.isRed = false := by
  cases d with
  | left => rfl
  | right => simp only [BinTree.facing, BlackHeight, and_comm]

@[simp] theorem blackHeight_black {d : Side} {s t : BinTree α} {a : α} {n : Nat} :
    BlackHeight (.facing d false s a t) n ↔ ∃ m, n = m + 1 ∧ BlackHeight s m ∧ BlackHeight t m := by
  cases d with
  | left => rfl
  | right => simp only [BinTree.facing, BlackHeight, and_comm]

theorem BlackHeight.facing {d : Side} {s t : BinTree α} {a : α} {n : Nat} (hs : BlackHeight s n)
    (ht : BlackHeight t n) : BlackHeight (.facing d false s a t) (n + 1) :=
  blackHeight_black.2 ⟨n, rfl, hs, ht⟩

/-- A red tree as it looks from the side `d`. -/
theorem exists_red {t : BinTree α} (h : t.isRed = true) (d : Side) :
    ∃ s a u, t = .facing d true s a u := by
  cases t with
  | nil => cases h
  | node red l a r =>
    cases h
    cases d with
    | left => exact ⟨l, a, r, rfl⟩
    | right => exact ⟨r, a, l, rfl⟩

/-- A tree that is not empty, as it looks from the side `d`. -/
theorem exists_facing {t : BinTree α} (h : t ≠ .nil) (d : Side) :
    ∃ red s a u, t = .facing d red s a u := by
  cases t with
  | nil => exact absurd rfl h
  | node red l a r =>
    cases d with
    | left => exact ⟨red, l, a, r, rfl⟩
    | right => exact ⟨red, r, a, l, rfl⟩

theorem BlackHeight.exists_black {t : BinTree α} {n : Nat} (hb : BlackHeight t (n + 1))
    (h : t.isRed = false) (d : Side) :
    ∃ s a u, t = .facing d false s a u ∧ BlackHeight s n ∧ BlackHeight u n := by
  cases t with
  | nil => cases hb
  | node red l a r =>
    cases h
    obtain ⟨m, hm, hl, hr⟩ := hb
    cases hm
    cases d with
    | left => exact ⟨l, a, r, rfl, hl, hr⟩
    | right => exact ⟨r, a, l, rfl, hr, hl⟩

theorem BlackHeight.blacken {t : BinTree α} {n : Nat} (hb : BlackHeight t n) (h : t.isRed = true) :
    BlackHeight t.blacken (n + 1) := by
  obtain ⟨s, a, u, rfl⟩ := exists_red h .left
  obtain ⟨⟨hs, hu⟩, -, -⟩ := blackHeight_red.1 hb
  rw [BinTree.blacken_facing]
  exact hs.facing hu

/-- The nodes on the longest way down. -/
def BinTree.height : BinTree α → Nat
  | nil => 0
  | node _ l _ r => max l.height r.height + 1

theorem BlackHeight.height_le {t : BinTree α} {n : Nat} (hb : BlackHeight t n) :
    t.height ≤ 2 * n + if t.isRed then 1 else 0 := by
  induction t generalizing n with
  | nil => exact Nat.zero_le _
  | node red l a r ihl ihr =>
    cases red with
    | true =>
      obtain ⟨⟨hl, hr⟩, hlr, hrr⟩ := hb
      have hl : l.height ≤ 2 * n := by simpa [hlr] using ihl hl
      have hr : r.height ≤ 2 * n := by simpa [hrr] using ihr hr
      simp only [BinTree.height, BinTree.isRed, if_true]
      omega
    | false =>
      obtain ⟨m, rfl, hl, hr⟩ := hb
      have hl := ihl hl
      have hr := ihr hr
      simp only [BinTree.height, BinTree.isRed]
      split at hl <;> split at hr <;> omega

theorem BlackHeight.two_pow_le {t : BinTree α} {n : Nat} (hb : BlackHeight t n) :
    2 ^ n ≤ t.inorder.length + 1 := by
  induction t generalizing n with
  | nil =>
    obtain rfl : n = 0 := hb
    exact Nat.le_refl 1
  | node red l a r ihl ihr =>
    simp only [BinTree.inorder, List.length_append, List.length_cons]
    cases red with
    | true =>
      have hl := ihl hb.1.1
      omega
    | false =>
      obtain ⟨m, rfl, hl, hr⟩ := hb
      have hl := ihl hl
      have hr := ihr hr
      rw [Nat.pow_succ]
      omega

/-- No way down is longer than twice the shortest there could be. -/
theorem RedBlack.height_le {t : BinTree α} (h : RedBlack t) :
    t.height ≤ 2 * Nat.log 2 (t.inorder.length + 1) := by
  obtain ⟨hblack, n, hb⟩ := h
  have hle := hb.height_le
  have hlog : n ≤ Nat.log 2 (t.inorder.length + 1) :=
    Nat.le_log_of_pow_le (by decide) hb.two_pow_le
  rw [hblack] at hle
  simp only [Bool.false_eq_true, if_false] at hle
  omega

/-- A red tree needs a black node above it. -/
def Sits : Ctx α → Bool → Prop
  | _, false => True
  | [], true => False
  | f :: _, true => f.red = false

/-- A tree with `n` black nodes on every way down fits the hole. -/
def Fits : Ctx α → Nat → Prop
  | [], _ => True
  | f :: c, n => BlackHeight f.sib n ∧ (f.red = true → f.sib.isRed = false) ∧ Sits c f.red ∧
      Fits c (if f.red then n else n + 1)

theorem redBlack_plug {c : Ctx α} {t : BinTree α} :
    RedBlack (plug c t) ↔ ∃ n, Fits c n ∧ BlackHeight t n ∧ Sits c t.isRed := by
  induction c generalizing t with
  | nil =>
    have hs : Sits ([] : Ctx α) t.isRed ↔ t.isRed = false := by
      cases t.isRed <;> simp [Sits]
    simp only [plug, RedBlack, Fits, hs, true_and, exists_and_right, and_comm]
  | cons f c ih =>
    obtain ⟨d, red, a, s⟩ := f
    rw [plug, ih]
    cases red with
    | true =>
      have hs : Sits (⟨d, true, a, s⟩ :: c) t.isRed ↔ t.isRed = false := by
        cases t.isRed <;> simp [Sits]
      simp only [Frame.fill, blackHeight_red, BinTree.isRed_facing, Fits, hs, if_true, true_implies]
      constructor
      · rintro ⟨n, hc, ⟨⟨ht, hb⟩, htr, hsr⟩, hsits⟩
        exact ⟨n, ⟨hb, hsr, hsits, hc⟩, ht, htr⟩
      · rintro ⟨n, ⟨hb, hsr, hsits, hc⟩, ht, htr⟩
        exact ⟨n, hc, ⟨⟨ht, hb⟩, htr, hsr⟩, hsits⟩
    | false =>
      have hs : Sits (⟨d, false, a, s⟩ :: c) t.isRed := by
        cases t.isRed <;> simp [Sits]
      have hsits : Sits c false := by cases c <;> trivial
      simp only [Frame.fill, blackHeight_black, BinTree.isRed_facing, Fits]
      constructor
      · rintro ⟨n, hc, ⟨m, rfl, ht, hb⟩, -⟩
        exact ⟨m, ⟨hb, nofun, hsits, hc⟩, ht, hs⟩
      · rintro ⟨n, ⟨hb, -, -, hc⟩, ht, -⟩
        exact ⟨n + 1, hc, ⟨n, rfl, ht, hb⟩, hsits⟩

theorem inorder_plug_congr (c : Ctx α) {t t' : BinTree α} (h : t.inorder = t'.inorder) :
    (plug c t).inorder = (plug c t').inorder := by
  rw [inorder_plug, inorder_plug, h]

/-- Which node stands at a place does not matter. -/
theorem fits_congr {c₁ c : Ctx α} {d : Side} {red : Bool} {a b : α} {s : BinTree α} {n : Nat} :
    Fits (c₁ ++ ⟨d, red, a, s⟩ :: c) n ↔ Fits (c₁ ++ ⟨d, red, b, s⟩ :: c) n := by
  induction c₁ generalizing n with
  | nil => rfl
  | cons f c₁ ih =>
    have hsits : Sits (c₁ ++ ⟨d, red, a, s⟩ :: c) f.red ↔
        Sits (c₁ ++ ⟨d, red, b, s⟩ :: c) f.red := by
      cases c₁ <;> cases f.red <;> rfl
    simp only [List.cons_append, Fits, hsits, ih]

@[simp] theorem sits_false (c : Ctx α) : Sits c false := by cases c <;> trivial

theorem Sits.parent {c : Ctx α} (h : Sits c true) : ∃ f c', c = f :: c' ∧ f.red = false := by
  cases c with
  | nil => exact h.elim
  | cons f c => exact ⟨f, c, rfl, h⟩

theorem redBlack_of_black {c : Ctx α} {t : BinTree α} {n : Nat} (hc : Fits c n)
    (ht : BlackHeight t n) (h : t.isRed = false) : RedBlack (plug c t) :=
  redBlack_plug.2 ⟨n, hc, ht, h ▸ sits_false c⟩

theorem redBlack_congr {c₁ c : Ctx α} {d : Side} {red : Bool} {a b : α} {s t : BinTree α} :
    RedBlack (plug (c₁ ++ ⟨d, red, a, s⟩ :: c) t) ↔
      RedBlack (plug (c₁ ++ ⟨d, red, b, s⟩ :: c) t) := by
  have hsits : Sits (c₁ ++ ⟨d, red, a, s⟩ :: c) t.isRed ↔
      Sits (c₁ ++ ⟨d, red, b, s⟩ :: c) t.isRed := by
    cases c₁ <;> cases t.isRed <;> rfl
  simp only [redBlack_plug, fits_congr (a := a) (b := b), hsits]

/-! ## Repairs after an insertion -/

/-- Both the parent and its sibling are red: they turn black and the node above them red. -/
theorem insert_recolour {f g : Frame α} {c : Ctx α} {t : BinTree α} {n : Nat}
    (hc : Fits (f :: g :: c) n) (ht : BlackHeight t n) (hf : f.red = true)
    (hg : g.sib.isRed = true) :
    Fits c (n + 1) ∧
      BlackHeight (.facing g.side true (.facing f.side false t f.a f.sib) g.a g.sib.blacken)
        (n + 1) := by
  obtain ⟨d, red, a, s⟩ := f
  cases hf
  obtain ⟨hs, -, hsits, hgs, -, -, hc⟩ := hc
  rw [show g.red = false from hsits] at hc
  exact ⟨hc, blackHeight_red.2 ⟨⟨ht.facing hs, hgs.blacken hg⟩, BinTree.isRed_facing .., by simp⟩⟩

/-- The parent takes the place of the node above it, which turns red. -/
theorem insert_rotate {f g : Frame α} {c : Ctx α} {n : Nat} (hc : Fits (f :: g :: c) n)
    (hf : f.red = true) (hg : g.sib.isRed = false) :
    Fits (⟨f.side, false, f.a, .facing f.side true f.sib g.a g.sib⟩ :: c) n := by
  obtain ⟨d, red, a, s⟩ := f
  cases hf
  obtain ⟨hs, hsr, hsits, hgs, -, -, hc⟩ := hc
  rw [show g.red = false from hsits] at hc
  exact ⟨blackHeight_red.2 ⟨⟨hs, hgs⟩, hsr rfl, hg⟩, nofun, sits_false c, hc⟩

/-- The red child on the inner side comes up first. -/
theorem insert_inner {f g : Frame α} {c : Ctx α} {s u : BinTree α} {b : α} {n : Nat}
    (hc : Fits (f :: g :: c) n) (ht : BlackHeight (.facing f.side.flip true s b u) n)
    (hf : f.red = true) :
    Fits (⟨f.side.flip, true, b, u⟩ :: g :: c) n ∧
      BlackHeight (.facing f.side.flip true f.sib f.a s) n := by
  obtain ⟨d, red, a, v⟩ := f
  cases hf
  obtain ⟨hv, hvr, hsits, hc⟩ := hc
  obtain ⟨⟨hs, hu⟩, hsr, hur⟩ := blackHeight_red.1 ht
  exact ⟨⟨hu, fun _ => hur, hsits, hc⟩, blackHeight_red.2 ⟨⟨hv, hs⟩, hvr rfl, hsr⟩⟩

/-! ## Repairs after a deletion -/

/-- A tree that is right for `n + 1` black nodes on every way down but for a black one missing
on top, which its root can make up for when it is red. -/
def Short (t : BinTree α) (n : Nat) : Prop :=
  if t.isRed then BlackHeight t.blacken (n + 1) else BlackHeight t n

theorem short_of_blackHeight {t : BinTree α} {n : Nat} (h : BlackHeight t n) : Short t n := by
  unfold Short
  split
  · exact h.blacken ‹_›
  · exact h

theorem Short.red {c : Ctx α} {t : BinTree α} {n : Nat} (h : Short t n) (hr : t.isRed = true)
    (hc : Fits c (n + 1)) : RedBlack (plug c t.blacken) := by
  rw [Short, if_pos hr] at h
  exact redBlack_of_black hc h (BinTree.isRed_blacken t)

theorem Short.black {t : BinTree α} {n : Nat} (h : Short t n) (hr : t.isRed = false) :
    BlackHeight t n := by
  rw [Short, if_neg (by simp [hr])] at h
  exact h

/-- A red sibling comes up and leaves a black one. -/
theorem delete_red_sibling {d : Side} {red : Bool} {a w : α} {c : Ctx α} {s u : BinTree α} {n : Nat}
    (hc : Fits (⟨d, red, a, .facing d true s w u⟩ :: c) (n + 1)) :
    red = false ∧ Fits (⟨d, true, a, s⟩ :: ⟨d, false, w, u⟩ :: c) (n + 1) := by
  obtain ⟨hv, hvr, -, hc⟩ := hc
  obtain ⟨⟨hs, hu⟩, hsr, -⟩ := blackHeight_red.1 hv
  cases red with
  | true => exact absurd (hvr rfl) (by simp)
  | false => exact ⟨rfl, hs, fun _ => hsr, rfl, hu, nofun, sits_false c, hc⟩

/-- A sibling with black children turns red, and the node above is the next to be short. -/
theorem delete_recolour {d : Side} {red : Bool} {a w : α} {c : Ctx α} {t s u : BinTree α} {n : Nat}
    (hc : Fits (⟨d, red, a, .facing d false s w u⟩ :: c) (n + 1)) (ht : BlackHeight t n)
    (hs : s.isRed = false) (hu : u.isRed = false) :
    ∃ m, Fits c (m + 1) ∧ Short (.facing d red t a (.facing d true s w u)) m := by
  obtain ⟨hv, -, -, hc⟩ := hc
  obtain ⟨m, hm, hsb, hub⟩ := blackHeight_black.1 hv
  cases hm
  have hw : BlackHeight (.facing d true s w u) n := blackHeight_red.2 ⟨⟨hsb, hub⟩, hs, hu⟩
  have hb : BlackHeight (.facing d false t a (.facing d true s w u)) (n + 1) := ht.facing hw
  cases red with
  | true =>
    refine ⟨n, hc, ?_⟩
    rw [Short, if_pos (BinTree.isRed_facing ..), BinTree.blacken_facing]
    exact hb
  | false => exact ⟨n + 1, hc, short_of_blackHeight hb⟩

/-- A red child of the sibling on the near side comes up in place of the sibling. -/
theorem delete_inner {d : Side} {red : Bool} {a b w : α} {c : Ctx α} {s u v : BinTree α} {n : Nat}
    (hc : Fits (⟨d, red, a, .facing d false (.facing d true s b u) w v⟩ :: c) n)
    (hv : v.isRed = false) :
    Fits (⟨d, red, a, .facing d false s b (.facing d true u w v)⟩ :: c) n := by
  obtain ⟨hw, -, hsits, hc⟩ := hc
  obtain ⟨m, rfl, hsu, hvb⟩ := blackHeight_black.1 hw
  obtain ⟨⟨hs, hu⟩, -, hur⟩ := blackHeight_red.1 hsu
  exact ⟨hs.facing (blackHeight_red.2 ⟨⟨hu, hvb⟩, hur, hv⟩), fun _ => BinTree.isRed_facing ..,
    hsits, hc⟩

/-- A red child of the sibling on the far side pays for the missing black node. -/
theorem delete_rotate {d : Side} {red : Bool} {a w : α} {c : Ctx α} {t s u : BinTree α} {n : Nat}
    (hc : Fits (⟨d, red, a, .facing d false s w u⟩ :: c) (n + 1)) (ht : BlackHeight t n)
    (hu : u.isRed = true) :
    RedBlack (plug c (.facing d red (.facing d false t a s) w u.blacken)) := by
  obtain ⟨hv, -, hsits, hc⟩ := hc
  obtain ⟨m, hm, hs, hub⟩ := blackHeight_black.1 hv
  cases hm
  have hl : BlackHeight (.facing d false t a s) (n + 1) := ht.facing hs
  have hr : BlackHeight u.blacken (n + 1) := hub.blacken hu
  refine redBlack_plug.2 ⟨if red then n + 1 else n + 2, ?_, ?_, by simpa using hsits⟩
  · cases red <;> exact hc
  · cases red with
    | true => exact blackHeight_red.2 ⟨⟨hl, hr⟩, by simp, by simp⟩
    | false => exact hl.facing hr

/-! ## The order -/

/-- Every node stands behind what comes before the hole and ahead of what comes after it. -/
def Between (le : α → α → Prop) (c : Ctx α) (z : α) : Prop :=
  (∀ a ∈ before c, le a z) ∧ ∀ a ∈ after c, le z a

def Sorted (le : α → α → Prop) (t : BinTree α) : Prop := t.inorder.Pairwise le

theorem sorted_plug_insert {le : α → α → Prop} {c : Ctx α} {z : α} {t : BinTree α}
    (hs : Sorted le (plug c .nil)) (hz : Between le c z) (ht : t.inorder = [z]) :
    Sorted le (plug c t) := by
  unfold Sorted at hs ⊢
  rw [inorder_plug] at hs ⊢
  rw [ht, List.append_assoc, List.pairwise_append]
  simp only [BinTree.inorder, List.append_nil] at hs
  obtain ⟨hb, ha, hab⟩ := List.pairwise_append.1 hs
  refine ⟨hb, List.pairwise_cons.2 ⟨hz.2, ha⟩, ?_⟩
  intro a hab' b hb'
  rcases List.mem_cons.1 hb' with rfl | hb'
  · exact hz.1 a hab'
  · exact hab a hab' b hb'

theorem Sorted.node {le : α → α → Prop} {c : Ctx α} {red : Bool} {l r : BinTree α} {a : α}
    (hs : Sorted le (plug c (.node red l a r))) :
    (∀ b ∈ l.inorder, le b a) ∧ ∀ b ∈ r.inorder, le a b := by
  unfold Sorted at hs
  rw [inorder_plug, List.append_assoc, List.pairwise_append] at hs
  obtain ⟨hl, hr, hlr⟩ := List.pairwise_append.1 (List.pairwise_append.1 hs.2.1).1
  exact ⟨fun b hb => hlr b hb a (List.mem_cons_self ..), (List.pairwise_cons.1 hr).1⟩

/-- The hole is where those that have `p` end. -/
def Splits (p : α → Prop) (c : Ctx α) : Prop := (∀ a ∈ before c, p a) ∧ ∀ a ∈ after c, ¬p a

section
variable {le : α → α → Prop} {p : α → Prop} {c : Ctx α} {red : Bool} {l r : BinTree α} {a : α}

/-- One step down, to the side on which they end. -/
theorem Splits.left (hp : ∀ a b, le a b → p b → p a) (hs : Sorted le (plug c (.node red l a r)))
    (h : Splits p c) (ha : ¬p a) : Splits p (⟨.left, red, a, r⟩ :: c) := by
  refine ⟨h.1, fun b hb => ?_⟩
  rcases List.mem_cons.1 hb with rfl | hb
  · exact ha
  rcases List.mem_append.1 hb with hb | hb
  · exact fun hpb => ha (hp a b (hs.node.2 b hb) hpb)
  · exact h.2 b hb

theorem Splits.right (hp : ∀ a b, le a b → p b → p a) (hs : Sorted le (plug c (.node red l a r)))
    (h : Splits p c) (ha : p a) : Splits p (⟨.right, red, a, l⟩ :: c) := by
  refine ⟨fun b hb => ?_, h.2⟩
  rcases List.mem_append.1 hb with hb | hb
  · rcases List.mem_append.1 hb with hb | hb
    · exact h.1 b hb
    · exact hp b a (hs.node.1 b hb) ha
  · rw [List.mem_singleton.1 hb]
    exact ha

end

/-- Those that do not have `r` stay ahead of `z`. -/
theorem orderedInsert_append {r : α → α → Prop} [DecidableRel r] {z : α} {l₁ l₂ : List α}
    (h₁ : ∀ a ∈ l₁, ¬r z a) (h₂ : ∀ a ∈ l₂, r z a) :
    (l₁ ++ l₂).orderedInsert r z = l₁ ++ z :: l₂ := by
  induction l₁ with
  | nil =>
    cases l₂ with
    | nil => rfl
    | cons a l₂ => exact if_pos (h₂ a List.mem_cons_self)
  | cons a l₁ ih =>
    rw [List.cons_append, List.orderedInsert, if_neg (h₁ a List.mem_cons_self),
      ih fun b hb => h₁ b (List.mem_cons_of_mem a hb)]
    rfl

/-! ## Neighbours -/

/-- Nothing comes after a hole that is to the right of all nodes around it. -/
theorem after_right {c : Ctx α} (h : ∀ f ∈ c, f.side = .right) : after c = [] := by
  induction c with
  | nil => rfl
  | cons f c ih =>
    obtain ⟨d, red, a, s⟩ := f
    obtain rfl : d = .right := h _ (List.mem_cons_self ..)
    exact ih fun f hf => h f (List.mem_cons_of_mem _ hf)

theorem mem_ctxNodes {c : Ctx α} {a : α} : a ∈ ctxNodes c ↔ a ∈ before c ∨ a ∈ after c := by
  have hn : (plug c .nil).nodes = ctxNodes c := (nodes_plug c .nil).trans (Multiset.add_zero _)
  rw [← hn, BinTree.nodes, inorder_plug]
  simp [BinTree.inorder]

/-- What stands before a node and what stands after it, by its place in the tree. -/
theorem neighbours {c : Ctx α} {red : Bool} {l r : BinTree α} {a : α} {l₁ l₂ : List α}
    (hn : (plug c (.node red l a r)).nodes.Nodup)
    (h : (plug c (.node red l a r)).inorder = l₁ ++ a :: l₂) :
    l₁ = before c ++ l.inorder ∧ l₂ = r.inorder ++ after c := by
  have hn : (l₁ ++ a :: l₂).Nodup := by
    rw [← h]
    exact hn
  obtain ⟨hout, -⟩ := List.nodup_cons.1 (List.nodup_middle.1 hn)
  rw [List.mem_append, not_or] at hout
  have hin : l₁ ++ a :: l₂ = (before c ++ l.inorder) ++ a :: (r.inorder ++ after c) := by
    rw [← h, inorder_plug]
    simp [BinTree.inorder]
  obtain ⟨he, -, he'⟩ := (List.append_cons_inj_of_notMem hout.1 hout.2).1 hin
  exact ⟨he, he'⟩

end nehcpu.redblack
