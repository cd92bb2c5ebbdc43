-- The laws of `rb_tree.c` over whole runs: whatever nodes go in and come out, in any order, the
-- tree stays a sorted red-black tree of the nodes that are in it, and a search finds what is there.
import Nehcpu.Kernel.RbInsert
import Nehcpu.Kernel.RbDelete

namespace nehcpu.kernel.rbtree

open redblack Function

variable {T : rb_tree} {h : Heap} {t : BinTree Node}

/-! ## Search -/

/-- A key among the nodes, as `compare` has it for `rb_search`: it agrees with the order. -/
structure Cut (T : rb_tree) (compare : Node → Int) : Prop where
  above : ∀ a b, T.le a b → compare a > 0 → compare b > 0
  below : ∀ a b, T.le a b → compare b < 0 → compare a < 0

theorem searchLoop_spec {compare : Node → Int} (hcut : Cut T compare) {p : Node} (fuel : Nat)
    (hs : Shape T h p t) (hsort : Sorted T.le t) (hnil : T.nil ∉ t.nodes)
    (hfuel : t.nodes.card < fuel) :
    ∃ x, searchLoop T compare h fuel (ptr T t) = some x ∧
      (x = T.nil ∧ (∀ a ∈ t.nodes, compare a ≠ 0) ∨ x ∈ t.nodes ∧ compare x = 0) := by
  induction fuel generalizing t p with
  | zero => exact absurd hfuel (Nat.not_lt_zero _)
  | succ fuel ih =>
    unfold searchLoop
    cases t with
    | nil => exact ⟨T.nil, if_neg fun h => h.1 rfl, .inl ⟨rfl, nofun⟩⟩
    | node red l a r =>
      obtain ⟨ha, hl, hr⟩ := hs
      obtain ⟨hla, har⟩ := Sorted.node (c := []) hsort
      have hsorts : Sorted T.le l ∧ Sorted T.le r := by
        obtain ⟨hl, hr, -⟩ := List.pairwise_append.1 hsort
        exact ⟨hl, (List.pairwise_cons.1 hr).2⟩
      have hn : (BinTree.node red l a r).nodes = a ::ₘ (l.nodes + r.nodes) :=
        BinTree.nodes_facing .left red l a r
      simp only [hn, Multiset.mem_cons, Multiset.mem_add, not_or, Multiset.card_cons,
        Multiset.card_add] at hnil hfuel ⊢
      rw [ptr, ha]
      by_cases heq : compare a = 0
      · rw [if_neg fun h => h.2 heq]
        exact ⟨a, rfl, .inr ⟨.inl rfl, heq⟩⟩
      rw [if_pos ⟨fun h => hnil.1 h.symm, heq⟩]
      by_cases hgt : compare a > 0
      · -- nothing to the right of `a` is equal to the key
        have hright : ∀ b ∈ r.nodes, compare b > 0 := fun b hb => hcut.above a b (har b hb) hgt
        obtain ⟨x, hloop, hx⟩ := ih hl hsorts.1 hnil.2.1 (by omega)
        rw [if_pos hgt]
        refine ⟨x, hloop, hx.imp (fun hn => ⟨hn.1, ?_⟩) fun hf => ⟨.inr (.inl hf.1), hf.2⟩⟩
        rintro b (rfl | hb | hb)
        · exact heq
        · exact hn.2 b hb
        · exact (hright b hb).ne'
      · have hlt : compare a < 0 := by omega
        have hleft : ∀ b ∈ l.nodes, compare b < 0 := fun b hb => hcut.below b a (hla b hb) hlt
        obtain ⟨x, hloop, hx⟩ := ih hr hsorts.2 hnil.2.2 (by omega)
        rw [if_neg hgt]
        refine ⟨x, hloop, hx.imp (fun hn => ⟨hn.1, ?_⟩) fun hf => ⟨.inr (.inr hf.1), hf.2⟩⟩
        rintro b (rfl | hb | hb)
        · exact heq
        · exact (hleft b hb).ne
        · exact hn.2 b hb

theorem rb_search_spec {compare : Node → Int} {fuel : Nat} (hcut : Cut T compare)
    (hat : At T h [] t) (hsort : Sorted T.le t) (hfuel : t.nodes.card < fuel) :
    ∃ r, rb_search T fuel compare h = some r ∧ (∀ a, r = some a → a ∈ t.nodes ∧ compare a = 0) ∧
      (r = none → ∀ a ∈ t.nodes, compare a ≠ 0) := by
  have hl : (h T.root).left = ptr T t := congrArg rb_node.left hat.hung
  obtain ⟨x, hloop, hx⟩ := searchLoop_spec hcut fuel hat.shape hsort hat.nil_out hfuel
  refine ⟨if x ≠ T.nil then some x else none, ?_, ?_⟩
  · simp only [rb_search, hl, hloop, bind, Option.bind_some]
  · rcases hx with ⟨rfl, hall⟩ | ⟨hx, he⟩
    · rw [if_neg (not_not.2 rfl)]
      exact ⟨nofun, fun _ => hall⟩
    · have hne : x ≠ T.nil := fun h => hat.nil_out (h ▸ hx)
      rw [if_pos hne]
      exact ⟨fun a ha => Option.some.inj ha ▸ ⟨hx, he⟩, nofun⟩

/-! ## Runs -/

inductive Op
  | insert (node : Node)
  | delete (node : Node)

def step (T : rb_tree) (fuel : Nat) (h : Heap) : Op → Option Heap
  | .insert node => rb_insert T fuel node h
  | .delete node => rb_delete T fuel node h

def run (T : rb_tree) (fuel : Nat) : List Op → Heap → Option Heap
  | [], h => some h
  | o :: os, h => (step T fuel h o).bind (run T fuel os)

/-- The nodes that are in, once those of `m` were. -/
def live (m : Multiset Node) : List Op → Multiset Node
  | [] => m
  | .insert node :: os => live (node ::ₘ m) os
  | .delete node :: os => live (m.erase node) os

/-- Nodes go in that are not in yet, and come out that are. -/
def Allowed (T : rb_tree) (m : Multiset Node) : List Op → Prop
  | [] => True
  | .insert node :: os =>
    (node ≠ T.nil ∧ node ≠ T.root ∧ node ∉ m) ∧ Allowed T (node ::ₘ m) os
  | .delete node :: os => node ∈ m ∧ Allowed T (m.erase node) os

/-- What every run keeps: a sorted red-black tree of the nodes in `m`. -/
structure Holds (T : rb_tree) (h : Heap) (t : BinTree Node) (m : Multiset Node) : Prop where
  at_root : At T h [] t
  redBlack : RedBlack t
  sorted : Sorted T.le t
  nodes : t.nodes = m

abbrev rb_tree.lt (T : rb_tree) (a b : Node) : Prop := T.compare b a > 0

/-- The nodes in their order, once those of `l` were: a node comes in behind all that are not
above it. -/
def ordered (T : rb_tree) (l : List Node) : List Op → List Node
  | [] => l
  | .insert node :: os =>
    ordered T (l.orderedInsert T.lt node) os
  | .delete node :: os => ordered T (l.erase node) os

theorem step_holds {m : Multiset Node} {fuel : Nat} {o : Op} {os : List Op}
    (hT : TotalPreorder T.compare) (hh : Holds T h t m) (ho : Allowed T m (o :: os))
    (hfuel : m.card + 1 < fuel) :
    ∃ t' h' m', step T fuel h o = some h' ∧ Holds T h' t' m' ∧ Allowed T m' os ∧
      live m (o :: os) = live m' os ∧ m'.card ≤ m.card + 1 ∧
      ordered T t.inorder (o :: os) = ordered T t'.inorder os := by
  obtain ⟨hat, hrb, hs, rfl⟩ := hh
  cases o with
  | insert z =>
    obtain ⟨hz, hos⟩ := ho
    obtain ⟨c, t', h', hins, hat', hrb', hs', hc, hin, hout⟩ :=
      rb_insert_spec hT hat hs hrb hz hfuel
    have hn : t'.nodes = z ::ₘ t.nodes := by
      rw [BinTree.nodes, BinTree.nodes, hin, hout]
      exact Multiset.coe_eq_coe.2 List.perm_middle
    refine ⟨t', h', _, hins, ⟨hat', hrb', hs', hn⟩, hos, rfl, by rw [Multiset.card_cons], ?_⟩
    have hbefore : ∀ a ∈ before c, ¬T.lt z a := fun a ha => Int.not_lt.2 (hc.1 a ha)
    have hafter : ∀ a ∈ after c, T.lt z a := fun a ha => Int.not_le.1 (hc.2 a ha)
    rw [ordered, hin, hout, orderedInsert_append hbefore hafter]
  | delete z =>
    obtain ⟨hz, hos⟩ := ho
    obtain ⟨t', h', l₁, l₂, hdel, hat', hrb', hin, hout⟩ :=
      rb_delete_spec hat hrb hz (Nat.lt_of_succ_lt hfuel)
    have hs' : Sorted T.le t' := by
      unfold Sorted at hs ⊢
      rw [hin] at hs
      rw [hout]
      exact hs.sublist (List.Sublist.append_left (List.sublist_cons_self z l₂) l₁)
    have hn : t'.nodes = t.nodes.erase z := by
      have ht : t.nodes = z ::ₘ t'.nodes := by
        rw [BinTree.nodes, BinTree.nodes, hin, hout]
        exact Multiset.coe_eq_coe.2 List.perm_middle
      rw [ht, Multiset.erase_cons_head]
    have hz₁ : z ∉ l₁ := by
      have hnodup := hat.inorder_nodup
      rw [hin] at hnodup
      exact fun hmem => (List.nodup_append.1 hnodup).2.2 z hmem z List.mem_cons_self rfl
    refine ⟨t', h', _, hdel, ⟨hat', hrb', hs', hn⟩, hos, rfl,
      Nat.le_succ_of_le (Multiset.card_le_card (Multiset.erase_le z _)), ?_⟩
    rw [ordered, hin, hout, List.erase_append_right _ hz₁, List.erase_cons_head]

theorem run_ordered {m : Multiset Node} {fuel : Nat} {os : List Op} (hT : TotalPreorder T.compare)
    (hh : Holds T h t m) (hos : Allowed T m os) (hfuel : m.card + os.length + 1 < fuel) :
    ∃ t' h', run T fuel os h = some h' ∧ Holds T h' t' (live m os) ∧
      t'.inorder = ordered T t.inorder os ∧ (live m os).card + 1 < fuel := by
  induction os generalizing h t m with
  | nil => exact ⟨t, h, rfl, hh, rfl, hfuel⟩
  | cons o os ih =>
    rw [List.length_cons] at hfuel
    obtain ⟨t1, h1, m1, hstep, hh1, hos1, hlive, hcard, hord⟩ := step_holds hT hh hos
      (show m.card + 1 < fuel by omega)
    obtain ⟨t2, h2, hrun, hh2, hord2, hlt⟩ := ih hh1 hos1
      (show m1.card + os.length + 1 < fuel by omega)
    refine ⟨t2, h2, ?_, hlive ▸ hh2, hord2.trans hord.symm, hlive ▸ hlt⟩
    rw [run, hstep, Option.bind_some, hrun]

theorem run_holds {m : Multiset Node} {fuel : Nat} {os : List Op} (hT : TotalPreorder T.compare)
    (hh : Holds T h t m) (hos : Allowed T m os) (hfuel : m.card + os.length + 1 < fuel) :
    ∃ t' h', run T fuel os h = some h' ∧ Holds T h' t' (live m os) ∧
      (live m os).card + 1 < fuel := by
  obtain ⟨t', h', hrun, hh', -, hlt⟩ := run_ordered hT hh hos hfuel
  exact ⟨t', h', hrun, hh', hlt⟩

theorem rb_tree_create_holds {compare : Node → Node → Int} {tree nil root : Node} {h₀ : Heap}
    (hne : nil ≠ root) (hT : rb_tree_create compare (some tree) (some nil) (some root) h₀ =
      (some T, h)) : Holds T h .nil 0 := by
  simp only [rb_tree_create, Prod.mk.injEq, Option.some.injEq] at hT
  obtain ⟨rfl, rfl⟩ := hT
  refine ⟨⟨trivial, update_self .., ?_, ?_⟩, ⟨rfl, 0, rfl⟩, List.Pairwise.nil, rfl⟩
  · simp [ctxNodes, hne]
  · rw [update_of_ne hne, update_self]

/-! ## The theorem -/

/-- In every run from a new tree no assertion fails and both repairs end. The tree is then laid out
in memory with the links of each node as in the tree, `nil` and the root black, no red node under
a red one and as many black nodes on one way down as on another; its nodes in order are sorted,
and they are those put in and not taken out; and a search finds one equal to the key exactly when
one is in. -/
theorem rb_tree_runs {compare : Node → Node → Int} {tree nil root : Node} {h₀ : Heap}
    {os : List Op} {fuel : Nat} (hcmp : TotalPreorder compare) (hne : nil ≠ root)
    (hT : rb_tree_create compare (some tree) (some nil) (some root) h₀ = (some T, h))
    (hos : Allowed T 0 os) (hfuel : os.length + 1 < fuel) :
    ∃ t h', run T fuel os h = some h' ∧ At T h' [] t ∧ RedBlack t ∧
      t.inorder.Pairwise (fun a b => compare a b ≤ 0) ∧ (t.inorder : Multiset Node) = live 0 os ∧
      ∀ key : Node → Int, Cut T key → ∃ r, rb_search T fuel key h' = some r ∧
        (∀ a, r = some a → a ∈ live 0 os ∧ key a = 0) ∧
        (r.isSome ↔ ∃ a ∈ live 0 os, key a = 0) := by
  have hcreate := rb_tree_create_holds hne hT
  have hcompare : T.compare = compare := by
    simp only [rb_tree_create, Prod.mk.injEq, Option.some.injEq] at hT
    rw [← hT.1]
  obtain ⟨t, h', hrun, hh, hlt⟩ := run_holds (hcompare ▸ hcmp) hcreate hos (by simpa using hfuel)
  refine ⟨t, h', hrun, hh.at_root, hh.redBlack, hcompare ▸ hh.sorted, hh.nodes, ?_⟩
  intro key hkey
  obtain ⟨r, hr, hsome, hnone⟩ := rb_search_spec hkey hh.at_root hh.sorted
    (show t.nodes.card < fuel by rw [hh.nodes]; omega)
  rw [hh.nodes] at hsome hnone
  refine ⟨r, hr, hsome, ?_⟩
  cases r with
  | none =>
    constructor
    · nofun
    · rintro ⟨a, ha, he⟩
      exact absurd he (hnone rfl a ha)
  | some a =>
    constructor
    · exact fun _ => ⟨a, (hsome a rfl).1, (hsome a rfl).2⟩
    · exact fun _ => rfl

/-! ## A run -/

/-- A `compare` such as `check_compare1`, from the data of the nodes. -/
def byKey (key : Node → Int) (a b : Node) : Int := key a - key b

theorem totalPreorder_byKey (key : Node → Int) : TotalPreorder (byKey key) where
  total a b := by unfold byKey; omega
  trans a b d hab hbd := by unfold byKey at *; omega

/-- Four nodes of which two and two have equal keys, in and partly out and in again. -/
def someOps : List Op :=
  [.insert 2, .insert 3, .insert 6, .insert 7, .delete 3, .delete 2, .insert 3]

theorem rb_tree_runs_someOps : ∃ t h',
    run ⟨byKey (· % 4), 0, 1⟩ 9 someOps
      (update (update (fun _ => ⟨false, 0, 0, 0⟩) 0 ⟨false, 0, 0, 0⟩) 1 ⟨false, 0, 0, 0⟩) =
        some h' ∧ At ⟨byKey (· % 4), 0, 1⟩ h' [] t ∧ RedBlack t ∧
      t.inorder.Pairwise (fun a b => byKey (· % 4) a b ≤ 0) ∧
      (t.inorder : Multiset Node) = live 0 someOps ∧
      ∀ key : Node → Int, Cut ⟨byKey (· % 4), 0, 1⟩ key →
        ∃ r, rb_search ⟨byKey (· % 4), 0, 1⟩ 9 key h' = some r ∧
          (∀ a, r = some a → a ∈ live 0 someOps ∧ key a = 0) ∧
          (r.isSome ↔ ∃ a ∈ live 0 someOps, key a = 0) :=
  rb_tree_runs (totalPreorder_byKey _) (by decide)
    (show rb_tree_create _ (some 9) (some 0) (some 1) _ = _ from rfl)
    ⟨by decide, by decide, by decide, by decide, by decide, by decide, by decide, trivial⟩
    (by decide)

end nehcpu.kernel.rbtree
