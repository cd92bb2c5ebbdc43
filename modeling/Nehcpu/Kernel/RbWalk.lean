-- What a user of `rb_tree.c` sees of a tree: a list in order, in which each node has its
-- neighbours. The check of the source never fails on it, and a search is short and ends at the
-- highest node it may end at.
import Nehcpu.Kernel.RbTreeOk

namespace nehcpu.kernel.rbtree

open redblack Function

variable {T : rb_tree} {h : Heap} {c : Ctx Node} {t : BinTree Node}

/-! ## Neighbours -/

theorem orNull_ne {a : Node} (ha : a ≠ T.nil) : T.orNull a = some a := if_pos ha

theorem orNull_nil : T.orNull T.nil = none := if_neg (not_not.2 rfl)

/-- The way up of the successor ends under the next node, or under the record above the root. -/
theorem aboveLoop_spec {fuel : Nat} (hat : At T h c t) (ht : t ≠ .nil) (hfuel : c.length < fuel) :
    aboveLoop h fuel (ptr T t) (up T c) = some ((after c).head?.getD T.root) := by
  induction fuel generalizing c t with
  | zero => exact absurd hfuel (Nat.not_lt_zero _)
  | succ fuel ih =>
    unfold aboveLoop
    cases c with
    | nil =>
      have hr : h T.root = ⟨false, T.nil, ptr T t, T.nil⟩ := hat.hung
      have hne : ptr T t ≠ T.nil := fun hp => ht (eq_nil_of_ptr hat.nil_out hp)
      rw [up, hr, if_neg hne]
      rfl
    | cons f c =>
      have hf := hat.hung.1
      have hne := hat.ptr_ne (.inl ht)
      have hup := hat.up_parent
      have hcons := at_cons.1 hat
      have hfill := f.fill_ne_nil t
      have hpf := ptr_fill (T := T) f t
      obtain ⟨d, red, a, s⟩ := f
      cases d with
      | left =>
        rw [up, hf]
        exact if_neg hne
      | right =>
        have hright : (h a).right = ptr T t := by
          rw [hf]
          rfl
        have hloop := ih hcons hfill (Nat.lt_of_succ_lt_succ hfuel)
        rw [hpf] at hloop
        rw [up, hright, if_pos rfl, hup, hloop]
        rfl

/-- The way up of the predecessor. -/
theorem belowLoop_spec {fuel : Nat} (hat : At T h c t) (ht : t ≠ .nil) (hfuel : c.length < fuel) :
    belowLoop T h fuel (ptr T t) (up T c) = some ((before c).getLast?.getD T.nil) := by
  induction fuel generalizing c t with
  | zero => exact absurd hfuel (Nat.not_lt_zero _)
  | succ fuel ih =>
    unfold belowLoop
    cases c with
    | nil =>
      have hr : h T.root = ⟨false, T.nil, ptr T t, T.nil⟩ := hat.hung
      rw [up, hr, if_pos rfl, if_pos rfl]
      rfl
    | cons f c =>
      have hf := hat.hung.1
      have hne := hat.ptr_ne (.inl ht)
      have hup := hat.up_parent
      have hcons := at_cons.1 hat
      have hfill := f.fill_ne_nil t
      have hpf := ptr_fill (T := T) f t
      have hroot : f.a ≠ T.root := by
        have hap := hat.apart
        simp only [ctxNodes, Multiset.nodup_cons, Multiset.mem_cons, Multiset.mem_add] at hap
        grind
      obtain ⟨d, red, a, s⟩ := f
      cases d with
      | left =>
        have hleft : (h a).left = ptr T t := by
          rw [hf]
          rfl
        have hloop := ih hcons hfill (Nat.lt_of_succ_lt_succ hfuel)
        rw [hpf] at hloop
        rw [up, hleft, if_pos rfl, if_neg hroot, hup, hloop]
        rfl
      | right =>
        have hleft : (h a).left = ptr T s := by
          rw [hf]
          rfl
        rw [up, hleft, if_neg hne]
        simp [before]

section

variable {red : Bool} {l r : BinTree Node} {a : Node} {fuel : Nat}

theorem nodes_node (red : Bool) (l r : BinTree Node) (a : Node) :
    (BinTree.node red l a r).nodes = a ::ₘ (l.nodes + r.nodes) :=
  BinTree.nodes_facing .left red l a r

theorem At.nil_parts (hat : At T h c (.node red l a r)) : T.nil ∉ l.nodes ∧ T.nil ∉ r.nodes := by
  have hnil := hat.nil_out
  rw [nodes_node] at hnil
  simp only [Multiset.mem_cons, Multiset.mem_add, not_or] at hnil
  exact hnil.2

/-- What stands around a place is neither of the two records. -/
theorem At.around (hat : At T h c t) {b : Node} (hb : b ∈ before c ∨ b ∈ after c) :
    b ≠ T.nil ∧ b ≠ T.root := by
  have hap := hat.apart
  have hb := mem_ctxNodes.2 hb
  simp only [Multiset.nodup_cons, Multiset.mem_cons, Multiset.mem_add, not_or] at hap
  constructor
  · rintro rfl
    exact hap.1.2.1 hb
  · rintro rfl
    exact hap.2.1.1 hb

theorem card_parts (hfuel : (plug c (.node red l a r)).nodes.card < fuel) :
    c.length < fuel ∧ l.nodes.card < fuel ∧ r.nodes.card < fuel := by
  have hlen := length_le_nodes c (.node red l a r)
  rw [nodes_plug, nodes_node, Multiset.card_add, Multiset.card_cons, Multiset.card_add]
    at hfuel hlen
  omega

theorem rb_tree_successor_spec (hat : At T h c (.node red l a r))
    (hfuel : (plug c (.node red l a r)).nodes.card < fuel) :
    rb_tree_successor T fuel a h = some ((r.inorder ++ after c).head?.getD T.nil) := by
  have ha := hat.shape.1
  obtain ⟨hlen, -, hcard⟩ := card_parts hfuel
  simp only [rb_tree_successor, ha]
  by_cases hr : r = .nil
  · subst hr
    have hloop : aboveLoop h fuel a (up T c) = _ := aboveLoop_spec hat (by simp) hlen
    have hnil : ¬ptr T .nil ≠ T.nil := not_not.2 rfl
    simp only [if_neg hnil, hloop, bind, Option.bind_some, BinTree.inorder, List.nil_append]
    cases hc : after c with
    | nil => simp
    | cons b rest =>
      have hb := hat.around (.inr (by rw [hc]; exact List.mem_cons_self))
      simp [hb.2]
  · have hne : ptr T r ≠ T.nil := fun hp => hr (eq_nil_of_ptr hat.nil_parts.2 hp)
    obtain ⟨c', red', y, s, hloop, rfl, hc'⟩ :=
      endLoop_spec (d := .left) fuel hat.shape.2.2 hat.nil_parts.2 hr hcard
    rw [if_pos hne, hloop, inorder_plug, before_left hc']
    simp [BinTree.facing, BinTree.inorder]

theorem rb_tree_predecessor_spec (hat : At T h c (.node red l a r))
    (hfuel : (plug c (.node red l a r)).nodes.card < fuel) :
    rb_tree_predecessor T fuel a h = some ((before c ++ l.inorder).getLast?.getD T.nil) := by
  have ha := hat.shape.1
  obtain ⟨hlen, hcard, -⟩ := card_parts hfuel
  simp only [rb_tree_predecessor, ha]
  by_cases hl : l = .nil
  · subst hl
    have hloop : belowLoop T h fuel a (up T c) = _ := belowLoop_spec hat (by simp) hlen
    have hnil : ¬ptr T .nil ≠ T.nil := not_not.2 rfl
    rw [if_neg hnil, hloop, BinTree.inorder, List.append_nil]
  · have hne : ptr T l ≠ T.nil := fun hp => hl (eq_nil_of_ptr hat.nil_parts.1 hp)
    obtain ⟨c', red', y, s, hloop, rfl, hc'⟩ :=
      endLoop_spec (d := .right) fuel hat.shape.2.1 hat.nil_parts.1 hl hcard
    rw [if_pos hne, hloop, inorder_plug, after_right hc']
    simp [BinTree.facing, BinTree.inorder]

end

/-- `nil` stands for no node at all. -/
theorem orNull_getD {o : Option Node} (ho : ∀ a, o = some a → a ≠ T.nil) :
    T.orNull (o.getD T.nil) = o := by
  cases o with
  | none => exact orNull_nil
  | some a => exact orNull_ne (ho a rfl)

/-- From a node to the ones next to it. -/
theorem rb_node_walk {fuel : Nat} {l₁ l₂ : List Node} {a : Node} (hat : At T h [] t)
    (hin : t.inorder = l₁ ++ a :: l₂) (hfuel : t.nodes.card < fuel) :
    rb_node_next T fuel a h = some l₂.head? ∧ rb_node_prev T fuel a h = some l₁.getLast? := by
  have hmem : ∀ b ∈ l₁ ++ a :: l₂, b ≠ T.nil := by
    rintro b hb rfl
    exact hat.nil_out (Multiset.mem_coe.2 (hin.symm ▸ hb))
  obtain ⟨c, red, l, r, rfl⟩ := exists_plug (show a ∈ t.nodes by simp [BinTree.nodes, hin])
  obtain ⟨h₁, h₂⟩ := neighbours hat.inorder_nodup hin
  have hplace := at_plug.2 hat
  constructor
  · rw [rb_node_next, rb_tree_successor_spec hplace hfuel, ← h₂]
    refine congrArg some (orNull_getD fun b hb => hmem b ?_)
    simp [List.mem_of_mem_head? hb]
  · rw [rb_node_prev, rb_tree_predecessor_spec hplace hfuel, ← h₁]
    refine congrArg some (orNull_getD fun b hb => hmem b ?_)
    simp [List.mem_of_mem_getLast? hb]

/-! ## The check -/

/-- What `compare` says of two nodes, it says the other way of them in the other order. -/
def SignSymmetric (compare : Node → Node → Int) : Prop :=
  ∀ a b, compare a b ≤ 0 → compare b a ≥ 0

section

variable {p : Node}

theorem Shape.parent (hs : Shape T h p t) (ht : ptr T t ≠ T.nil) : (h (ptr T t)).parent = p := by
  cases t with
  | nil => exact absurd rfl ht
  | node red l a r => exact congrArg rb_node.parent hs.1

theorem Shape.red (hs : Shape T h p t) (hb : (h T.nil).red = false) :
    (h (ptr T t)).red = t.isRed := by
  cases t with
  | nil => exact hb
  | node red l a r => exact congrArg rb_node.red hs.1

theorem Sorted.parts {le : Node → Node → Prop} {red : Bool} {l r : BinTree Node} {a : Node}
    (hs : Sorted le (.node red l a r)) : Sorted le l ∧ Sorted le r := by
  obtain ⟨hl, hr, -⟩ := List.pairwise_append.1 hs
  exact ⟨hl, (List.pairwise_cons.1 hr).2⟩

/-- On a node of the tree no assertion of the check fails. -/
theorem Shape.nodeOk {red : Bool} {l r : BinTree Node} {a : Node} {n : Nat}
    (hsign : SignSymmetric T.compare) (hs : Shape T h p (.node red l a r))
    (hblack : (h T.nil).red = false) (hsort : Sorted T.le (.node red l a r))
    (hb : BlackHeight (.node red l a r) n) : NodeOk T h a := by
  obtain ⟨ha, hl, hr⟩ := hs
  obtain ⟨hla, har⟩ := Sorted.node (c := []) hsort
  rw [NodeOk, ha]
  refine ⟨fun hne => ⟨?_, hl.parent hne⟩, fun hne => ⟨?_, hr.parent hne⟩, fun hred => ?_⟩
  · exact hsign _ _ (hla _ (mem_nodes_ptr hne))
  · exact har _ (mem_nodes_ptr hne)
  · obtain rfl : red = true := hred
    rw [hl.red hblack, hr.red hblack]
    exact hb.2

theorem check_tree_spec {fuel n : Nat} (hsign : SignSymmetric T.compare) (hs : Shape T h p t)
    (hnil : T.nil ∉ t.nodes) (hblack : (h T.nil).red = false) (hsort : Sorted T.le t)
    (hb : BlackHeight t n) (hfuel : t.nodes.card < fuel) :
    check_tree T h fuel (ptr T t) = some (n + 1) := by
  induction fuel generalizing t p n with
  | zero => exact absurd hfuel (Nat.not_lt_zero _)
  | succ fuel ih =>
    cases t with
    | nil =>
      obtain rfl : n = 0 := hb
      simp [check_tree, ptr, hblack, guard]
    | node red l a r =>
      have hok := Shape.nodeOk hsign hs hblack hsort hb
      obtain ⟨ha, hl, hr⟩ := hs
      obtain ⟨hsl, hsr⟩ := Sorted.parts hsort
      rw [nodes_node] at hnil hfuel
      simp only [Multiset.mem_cons, Multiset.mem_add, not_or, Multiset.card_cons,
        Multiset.card_add] at hnil hfuel
      have hne : a ≠ T.nil := Ne.symm hnil.1
      have hptr : ptr T (.node red l a r) = a := rfl
      rw [hptr]
      have hcl : l.nodes.card < fuel := by omega
      have hcr : r.nodes.card < fuel := by omega
      cases red with
      | true =>
        obtain ⟨⟨hbl, hbr⟩, -⟩ := hb
        have hleft := ih hl hnil.2.1 hsl hbl hcl
        have hright := ih hr hnil.2.2 hsr hbr hcr
        simp [check_tree, hne, hok, ha, hleft, hright, guard]
      | false =>
        obtain ⟨m, rfl, hbl, hbr⟩ := hb
        have hleft := ih hl hnil.2.1 hsl hbl hcl
        have hright := ih hr hnil.2.2 hsr hbr hcr
        simp [check_tree, hne, hok, ha, hleft, hright, guard]

end

/-! ## The highest node -/

/-- Up from `b` to `a`, link by link. -/
def Climbs (h : Heap) (b a : Node) : Prop := ∃ k, (fun x => (h x).parent)^[k] b = a

theorem Climbs.refl (h : Heap) (a : Node) : Climbs h a a := ⟨0, rfl⟩

theorem Climbs.parent {a b : Node} (hc : Climbs h b a) : Climbs h b (h a).parent := by
  obtain ⟨k, rfl⟩ := hc
  exact ⟨k + 1, iterate_succ_apply' _ k b⟩

theorem Shape.climbs {p b : Node} (hs : Shape T h p t) (hb : b ∈ t.nodes) :
    Climbs h b (ptr T t) := by
  induction t generalizing p with
  | nil => exact absurd hb (Multiset.notMem_zero b)
  | node red l a r ihl ihr =>
    obtain ⟨-, hl, hr⟩ := hs
    rw [nodes_node] at hb
    simp only [Multiset.mem_cons, Multiset.mem_add] at hb
    rcases hb with rfl | hb | hb
    · exact Climbs.refl h b
    · have hup := (ihl hl hb).parent
      cases l with
      | nil => exact absurd hb (Multiset.notMem_zero b)
      | node red' l' a' r' => rwa [ptr, hl.1] at hup
    · have hup := (ihr hr hb).parent
      cases r with
      | nil => exact absurd hb (Multiset.notMem_zero b)
      | node red' l' a' r' => rwa [ptr, hr.1] at hup

theorem searchLoop_highest {compare : Node → Int} (hcut : Cut T compare) {p x b : Node}
    (fuel : Nat) (hs : Shape T h p t) (hsort : Sorted T.le t)
    (hloop : searchLoop T compare h fuel (ptr T t) = some x) (hb : b ∈ t.nodes)
    (he : compare b = 0) : Climbs h b x := by
  induction fuel generalizing t p with
  | zero => cases hloop
  | succ fuel ih =>
    cases t with
    | nil => exact absurd hb (Multiset.notMem_zero b)
    | node red l a r =>
      have hclimb := hs.climbs hb
      obtain ⟨ha, hl, hr⟩ := hs
      obtain ⟨hla, har⟩ := Sorted.node (c := []) hsort
      obtain ⟨hsl, hsr⟩ := Sorted.parts hsort
      rw [nodes_node] at hb
      simp only [Multiset.mem_cons, Multiset.mem_add] at hb
      unfold searchLoop at hloop
      rw [ptr] at hloop hclimb
      split at hloop
      · next hgo =>
        rw [ha] at hloop
        split at hloop
        · next hgt =>
          rcases hb with rfl | hb | hb
          · exact absurd he hgo.2
          · exact ih hl hsl hloop hb
          · have hbgt := hcut.above a b (har b hb) hgt
            omega
        · next hgt =>
          rcases hb with rfl | hb | hb
          · exact absurd he hgo.2
          · have hblt := hcut.below b a (hla b hb) (by omega)
            omega
          · exact ih hr hsr hloop hb
      · obtain rfl := Option.some.inj hloop
        exact hclimb

/-- A search takes no more turns than the longest way down. -/
theorem searchLoop_height {compare : Node → Int} {p : Node} {fuel : Nat} (hs : Shape T h p t)
    (hfuel : t.height < fuel) :
    searchLoop T compare h fuel (ptr T t) = searchLoop T compare h (t.height + 1) (ptr T t) := by
  induction t generalizing p fuel with
  | nil =>
    obtain ⟨k, rfl⟩ := Nat.exists_eq_add_of_lt hfuel
    simp [searchLoop, ptr]
  | node red l a r ihl ihr =>
    obtain ⟨ha, hl, hr⟩ := hs
    obtain ⟨fuel, rfl⟩ : ∃ k, fuel = k + 1 := ⟨fuel - 1, by omega⟩
    have hfuel : (max l.height r.height + 1) < fuel + 1 := hfuel
    have hptr : ptr T (.node red l a r) = a := rfl
    rw [hptr, BinTree.height, searchLoop, searchLoop, ha]
    split
    · split
      · rw [ihl hl (by omega), ihl hl (show l.height < max l.height r.height + 1 by omega)]
      · rw [ihr hr (by omega), ihr hr (show r.height < max l.height r.height + 1 by omega)]
    · rfl

theorem rb_search_highest {compare : Node → Int} {fuel : Nat} {a b : Node}
    (hcut : Cut T compare) (hat : At T h [] t) (hsort : Sorted T.le t)
    (ha : rb_search T fuel compare h = some (some a)) (hb : b ∈ t.nodes) (he : compare b = 0) :
    Climbs h b a := by
  have hl : (h T.root).left = ptr T t := congrArg rb_node.left hat.hung
  rw [rb_search, hl] at ha
  cases hloop : searchLoop T compare h fuel (ptr T t) with
  | none =>
    rw [hloop] at ha
    cases ha
  | some x =>
    rw [hloop] at ha
    have hx : (if x ≠ T.nil then some x else none) = some a := Option.some.inj ha
    split at hx
    · obtain rfl := Option.some.inj hx
      exact searchLoop_highest hcut fuel hat.shape hsort hloop hb he
    · cases hx

theorem rb_search_height {compare : Node → Int} {fuel fuel' : Nat} (hat : At T h [] t)
    (hfuel : t.height < fuel) (hfuel' : t.height < fuel') :
    rb_search T fuel compare h = rb_search T fuel' compare h := by
  have hl : (h T.root).left = ptr T t := congrArg rb_node.left hat.hung
  rw [rb_search, rb_search, hl, searchLoop_height hat.shape hfuel,
    searchLoop_height hat.shape hfuel']

/-! ## The theorems -/

section

variable {compare : Node → Node → Int} {tree nil root : Node} {h₀ : Heap} {os : List Op}
  {fuel : Nat}

/-- What a run from a new tree leaves. -/
theorem run_from_new (hcmp : TotalPreorder compare) (hne : nil ≠ root)
    (hT : rb_tree_create compare (some tree) (some nil) (some root) h₀ = (some T, h))
    (hos : Allowed T 0 os) (hfuel : os.length + 1 < fuel) :
    ∃ t h', run T fuel os h = some h' ∧ T.compare = compare ∧ Holds T h' t (live 0 os) ∧
      t.inorder = ordered T [] os ∧ t.nodes.card < fuel := by
  have hcompare : T.compare = compare := by
    simp only [rb_tree_create, Prod.mk.injEq, Option.some.injEq] at hT
    rw [← hT.1]
  obtain ⟨t, h', hrun, hh, hord, hlt⟩ :=
    run_ordered (hcompare ▸ hcmp) (rb_tree_create_holds hne hT) hos (by simpa using hfuel)
  refine ⟨t, h', hrun, hcompare, hh, hord, ?_⟩
  rw [hh.nodes]
  omega

/-- In every run from a new tree the nodes stand in the order in which they would in a list where
each comes in behind those that are not above it, and goes out again: `rb_node_next` and
`rb_node_prev` give the neighbours of a node in that list, and `NULL` at its ends. -/
theorem rb_tree_walks (hcmp : TotalPreorder compare) (hne : nil ≠ root)
    (hT : rb_tree_create compare (some tree) (some nil) (some root) h₀ = (some T, h))
    (hos : Allowed T 0 os) (hfuel : os.length + 1 < fuel) :
    ∃ h', run T fuel os h = some h' ∧ (rb_node_root T h' = none ↔ ordered T [] os = []) ∧
      ∀ l₁ a l₂, ordered T [] os = l₁ ++ a :: l₂ →
        rb_node_next T fuel a h' = some l₂.head? ∧ rb_node_prev T fuel a h' = some l₁.getLast? := by
  obtain ⟨t, h', hrun, -, hh, hord, hlt⟩ := run_from_new hcmp hne hT hos hfuel
  refine ⟨h', hrun, ?_, fun l₁ a l₂ hl => rb_node_walk hh.at_root (hord.trans hl) hlt⟩
  have hl : (h' T.root).left = ptr T t := congrArg rb_node.left hh.at_root.hung
  rw [rb_node_root, hl, ← hord]
  cases t with
  | nil => simp [ptr, orNull_nil, BinTree.inorder]
  | node red l a r =>
    have ha : ptr T (.node red l a r) ≠ T.nil := by
      intro hp
      cases eq_nil_of_ptr hh.at_root.nil_out hp
    simp [orNull_ne ha, BinTree.inorder]

/-- In every run from a new tree the check of the source passes, at whatever point it is made. -/
theorem check_tree_runs (hcmp : TotalPreorder compare) (hsign : SignSymmetric compare)
    (hne : nil ≠ root)
    (hT : rb_tree_create compare (some tree) (some nil) (some root) h₀ = (some T, h))
    (hos : Allowed T 0 os) (hfuel : os.length + 1 < fuel) :
    ∃ h' hb, run T fuel os h = some h' ∧ check_tree T h' fuel (h' T.root).left = some (hb + 1) ∧
      2 ^ hb ≤ (live 0 os).card + 1 := by
  obtain ⟨t, h', hrun, rfl, hh, -, hlt⟩ := run_from_new hcmp hne hT hos hfuel
  obtain ⟨hat, ⟨-, n, hn⟩, hsort, hnodes⟩ := hh
  have hl : (h' T.root).left = ptr T t := congrArg rb_node.left hat.hung
  refine ⟨h', n, hrun, ?_, ?_⟩
  · rw [hl]
    exact check_tree_spec hsign hat.shape hat.nil_out hat.nil_black hsort hn hlt
  · rw [← hnodes]
    exact hn.two_pow_le

/-- In every run from a new tree a search turns at most twice the logarithm of the number of nodes,
and it ends at the highest of the nodes with the key: the others are all below it. -/
theorem rb_search_runs {key : Node → Int} (hcmp : TotalPreorder compare) (hne : nil ≠ root)
    (hT : rb_tree_create compare (some tree) (some nil) (some root) h₀ = (some T, h))
    (hos : Allowed T 0 os) (hfuel : os.length + 1 < fuel) (hkey : Cut T key) :
    ∃ h' r, run T fuel os h = some h' ∧
      rb_search T (2 * Nat.log 2 ((live 0 os).card + 1) + 1) key h' = some r ∧
      (r = none → ∀ b ∈ live 0 os, key b ≠ 0) ∧
      ∀ a, r = some a → a ∈ live 0 os ∧ key a = 0 ∧ ∀ b ∈ live 0 os, key b = 0 → Climbs h' b a := by
  obtain ⟨t, h', hrun, rfl, hh, -, hlt⟩ := run_from_new hcmp hne hT hos hfuel
  obtain ⟨hat, hrb, hsort, hnodes⟩ := hh
  have hcard : t.inorder.length = (live 0 os).card := by
    rw [← hnodes]
    rfl
  have hheight := hrb.height_le
  rw [hcard] at hheight
  obtain ⟨r, hr, hsome, hnone⟩ :=
    rb_search_spec hkey hat hsort (show t.nodes.card < fuel + t.height by omega)
  rw [← rb_search_height hat (Nat.lt_succ_of_le hheight) (by omega)] at hr
  rw [hnodes] at hsome hnone
  refine ⟨h', r, hrun, hr, hnone, ?_⟩
  rintro a rfl
  refine ⟨(hsome a rfl).1, (hsome a rfl).2, fun b hb he => ?_⟩
  exact rb_search_highest hkey hat hsort hr (hnodes ▸ hb) he

end

/-! ## A run -/

theorem signSymmetric_byKey (key : Node → Int) : SignSymmetric (byKey key) := by
  intro a b hab
  unfold byKey at *
  omega

theorem cut_byKey {T : rb_tree} {key : Node → Int} (hT : T.compare = byKey key) (k : Int) :
    Cut T fun a => key a - k := by
  constructor <;>
  · intro a b hab hk
    have hab : T.compare a b ≤ 0 := hab
    rw [hT, byKey] at hab
    omega

/-- The tree of `someOps`, and memory in which it is new. -/
abbrev someTree : rb_tree := ⟨byKey (· % 4), 0, 1⟩

abbrev someHeap : Heap :=
  update (update (fun _ => ⟨false, 0, 0, 0⟩) 0 ⟨false, 0, 0, 0⟩) 1 ⟨false, 0, 0, 0⟩

theorem rb_tree_create_some : rb_tree_create (byKey (· % 4)) (some 9) (some 0) (some 1)
    (fun _ => ⟨false, 0, 0, 0⟩) = (some someTree, someHeap) := rfl

theorem someOps_allowed : Allowed someTree 0 someOps :=
  ⟨by decide, by decide, by decide, by decide, by decide, by decide, by decide, trivial⟩

/-- The nodes 3 and 7 are equal, and 3 came in again behind 7. -/
theorem rb_tree_walks_someOps : ∃ h', run someTree 9 someOps someHeap = some h' ∧
    rb_node_next someTree 9 7 h' = some (some 3) ∧
    rb_node_prev someTree 9 7 h' = some (some 6) := by
  obtain ⟨h', hrun, -, hwalk⟩ := rb_tree_walks (totalPreorder_byKey _) (by decide)
    rb_tree_create_some someOps_allowed (show 8 < 9 by decide)
  obtain ⟨hnext, hprev⟩ := hwalk [6] 7 [3] (by decide)
  exact ⟨h', hrun, hnext, hprev⟩

theorem check_tree_runs_someOps : ∃ h' hb, run someTree 9 someOps someHeap = some h' ∧
    check_tree someTree h' 9 (h' someTree.root).left = some (hb + 1) ∧
    2 ^ hb ≤ (live 0 someOps).card + 1 :=
  check_tree_runs (totalPreorder_byKey _) (signSymmetric_byKey _) (by decide)
    rb_tree_create_some someOps_allowed (by decide)

theorem rb_search_runs_someOps : ∃ h' r, run someTree 9 someOps someHeap = some h' ∧
    rb_search someTree 5 (fun a => (a % 4 : Int) - 3) h' = some r ∧
    (r = none → ∀ b ∈ live 0 someOps, (b % 4 : Int) - 3 ≠ 0) ∧
    ∀ a, r = some a → a ∈ live 0 someOps ∧ (a % 4 : Int) - 3 = 0 ∧
      ∀ b ∈ live 0 someOps, (b % 4 : Int) - 3 = 0 → Climbs h' b a :=
  rb_search_runs (totalPreorder_byKey _) (by decide) rb_tree_create_some someOps_allowed
    (show 8 < 9 by decide) (cut_byKey rfl 3)

end nehcpu.kernel.rbtree
