-- The red-black trees of `rb_tree.c`: nodes linked into their owners, a record above the root whose
-- left child is the tree, and one shared node `nil` in place of every missing child.
import Mathlib.Logic.Function.Basic
import Nehcpu.Lib.RedBlack

namespace nehcpu.kernel.rbtree

open redblack Function

/-! ## Nodes -/

/-- A `rb_node *`. -/
abbrev Node := Nat

structure rb_node where
  red : Bool
  parent : Node
  left : Node
  right : Node
deriving DecidableEq, Repr

/-- `_left` and `_right` are what the macros of the source are given: here they are sides. -/
def rb_node.child (r : rb_node) : Side → Node
  | .left => r.left
  | .right => r.right

def rb_node.setChild (r : rb_node) (b : Node) : Side → rb_node
  | .left => { r with left := b }
  | .right => { r with right := b }

structure rb_tree where
  compare : Node → Node → Int
  nil : Node
  root : Node

abbrev Heap := Node → rb_node

def Heap.edit (h : Heap) (a : Node) (f : rb_node → rb_node) : Heap := update h a (f (h a))

def Heap.setRed (h : Heap) (a : Node) (red : Bool) : Heap := h.edit a ({ · with red := red })

def Heap.setParent (h : Heap) (a p : Node) : Heap := h.edit a ({ · with parent := p })

def Heap.setChild (h : Heap) (a : Node) (d : Side) (b : Node) : Heap := h.edit a (·.setChild b d)

/-- `rb_tree_create`, given what its three calls of `kmalloc` return. -/
def rb_tree_create (compare : Node → Node → Int) (tree nil root : Option Node) (h : Heap) :
    Option rb_tree × Heap :=
  match tree, nil with
  | none, _ => (none, h)
  | some _, none => (none, h)
  | some _, some nil =>
    let h := update h nil ⟨false, nil, nil, nil⟩
    match root with
    | none => (none, h)
    | some root => (some ⟨compare, nil, root⟩, update h root ⟨false, nil, nil, nil⟩)

/-! ## Rotations -/

-- From here on `none` is an assertion that fails, or a loop that has used up its fuel.

/-- `b` takes the place of `a` under the parent of `a`, which looks at its child on the side `d`
first. -/
def relink (d : Side) (a b : Node) (h : Heap) : Heap :=
  if a = (h (h a).parent).child d then h.setChild (h a).parent d b
  else h.setChild (h a).parent d.flip b

/-- `FUNC_ROTATE`, with `d` for `_left`. -/
def rotate (T : rb_tree) (d : Side) (x : Node) (h : Heap) : Option Heap := do
  let nil := T.nil
  let y := (h x).child d.flip
  guard (x ≠ T.root ∧ x ≠ nil ∧ y ≠ nil)
  let h := h.setChild x d.flip ((h y).child d)
  let h := if (h y).child d ≠ nil then h.setParent ((h y).child d) x else h
  let h := h.setParent y (h x).parent
  let h := relink d x y h
  let h := h.setChild y d x
  let h := h.setParent x y
  guard ((h nil).red = false)
  some h

def rb_left_rotate (T : rb_tree) (x : Node) (h : Heap) : Option Heap := rotate T .left x h

def rb_right_rotate (T : rb_tree) (x : Node) (h : Heap) : Option Heap := rotate T .right x h

/-! ## Insertion -/

/-- The way down of `rb_insert_binary`: the node under which the search ends. -/
def binaryLoop (T : rb_tree) (node : Node) (h : Heap) : Nat → Node → Node → Option Node
  | 0, _, _ => none
  | fuel + 1, y, x =>
    if x ≠ T.nil then
      binaryLoop T node h fuel x (if T.compare x node > 0 then (h x).left else (h x).right)
    else some y

def rb_insert_binary (T : rb_tree) (fuel : Nat) (node : Node) (h : Heap) : Option Heap := do
  let z := node
  let h := (h.setChild z .right T.nil).setChild z .left T.nil
  let y ← binaryLoop T node h fuel T.root (h T.root).left
  let h := h.setParent z y
  if y = T.root ∨ T.compare y z > 0 then some (h.setChild y .left z)
  else some (h.setChild y .right z)

/-- The turn of `RB_INSERT_SUB` that brings an inner child up. -/
def insertInner (T : rb_tree) (d : Side) (x : Node) (h : Heap) : Option (Node × Heap) :=
  if x = (h (h x).parent).child d.flip then do
    let x := (h x).parent
    let h ← rotate T d x h
    some (x, h)
  else some (x, h)

/-- `RB_INSERT_SUB`, with `d` for `_left`: the next `x`. -/
def insertSub (T : rb_tree) (d : Side) (x : Node) (h : Heap) : Option (Node × Heap) := do
  let y := (h (h (h x).parent).parent).child d.flip
  if (h y).red then
    let h := h.setRed (h x).parent false
    let h := h.setRed y false
    let h := h.setRed (h (h x).parent).parent true
    some ((h (h x).parent).parent, h)
  else
    let (x, h) ← insertInner T d x h
    let h := h.setRed (h x).parent false
    let h := h.setRed (h (h x).parent).parent true
    let h ← rotate T d.flip (h (h x).parent).parent h
    some (x, h)

def insertLoop (T : rb_tree) : Nat → Node → Heap → Option Heap
  | 0, _, _ => none
  | fuel + 1, x, h => do
    if (h (h x).parent).red then
      let d := if (h x).parent = (h (h (h x).parent).parent).left then .left else .right
      let (x, h) ← insertSub T d x h
      insertLoop T fuel x h
    else some h

def rb_insert (T : rb_tree) (fuel : Nat) (node : Node) (h : Heap) : Option Heap := do
  let h ← rb_insert_binary T fuel node h
  let h := h.setRed node true
  let h ← insertLoop T fuel node h
  let h := h.setRed (h T.root).left false
  guard ((h T.nil).red = false ∧ (h T.root).red = false)
  some h

/-! ## Search -/

/-- As far as it goes on the side `d`. -/
def endLoop (T : rb_tree) (d : Side) (h : Heap) : Nat → Node → Option Node
  | 0, _ => none
  | fuel + 1, y => if (h y).child d ≠ T.nil then endLoop T d h fuel ((h y).child d) else some y

/-- Up until it comes from the left. -/
def aboveLoop (h : Heap) : Nat → Node → Node → Option Node
  | 0, _, _ => none
  | fuel + 1, x, y => if x = (h y).right then aboveLoop h fuel y (h y).parent else some y

def rb_tree_successor (T : rb_tree) (fuel : Nat) (node : Node) (h : Heap) : Option Node := do
  let y := (h node).right
  if y ≠ T.nil then endLoop T .left h fuel y
  else
    let y ← aboveLoop h fuel node (h node).parent
    if y = T.root then some T.nil else some y

def searchLoop (T : rb_tree) (compare : Node → Int) (h : Heap) : Nat → Node → Option Node
  | 0, _ => none
  | fuel + 1, node =>
    if node ≠ T.nil ∧ compare node ≠ 0 then
      searchLoop T compare h fuel (if compare node > 0 then (h node).left else (h node).right)
    else some node

/-- `rb_search`, with `compare` as it is for the key at hand. `NULL` is the inner `none`. -/
def rb_search (T : rb_tree) (fuel : Nat) (compare : Node → Int) (h : Heap) :
    Option (Option Node) := do
  let node ← searchLoop T compare h fuel (h T.root).left
  some (if node ≠ T.nil then some node else none)

/-! ## Deletion -/

/-- The sibling `w` of `x`, once a red one has been turned up. -/
def deleteSibling (T : rb_tree) (d : Side) (x : Node) (h : Heap) : Option (Node × Heap) :=
  let w := (h (h x).parent).child d.flip
  if (h w).red then do
    let h := h.setRed w false
    let h := h.setRed (h x).parent true
    let h ← rotate T d (h x).parent h
    some ((h (h x).parent).child d.flip, h)
  else some (w, h)

/-- The sibling of `x`, once its far child is red. -/
def deleteInner (T : rb_tree) (d : Side) (x w : Node) (h : Heap) : Option (Node × Heap) :=
  if !(h ((h w).child d.flip)).red then do
    let h := h.setRed ((h w).child d) false
    let h := h.setRed w true
    let h ← rotate T d.flip w h
    some ((h (h x).parent).child d.flip, h)
  else some (w, h)

/-- `RB_DELETE_FIXUP_SUB`, with `d` for `_left`: the next `x`. -/
def deleteSub (T : rb_tree) (d : Side) (root x : Node) (h : Heap) : Option (Node × Heap) := do
  let (w, h) ← deleteSibling T d x h
  if !(h ((h w).child d)).red && !(h ((h w).child d.flip)).red then
    let h := h.setRed w true
    some ((h x).parent, h)
  else
    let (w, h) ← deleteInner T d x w h
    let h := h.setRed w (h (h x).parent).red
    let h := h.setRed (h x).parent false
    let h := h.setRed ((h w).child d.flip) false
    let h ← rotate T d (h x).parent h
    some (root, h)

def fixupLoop (T : rb_tree) (root : Node) : Nat → Node → Heap → Option (Node × Heap)
  | 0, _, _ => none
  | fuel + 1, x, h => do
    if x ≠ root ∧ !(h x).red then
      let d := if x = (h (h x).parent).left then .left else .right
      let (x, h) ← deleteSub T d root x h
      fixupLoop T root fuel x h
    else some (x, h)

def rb_delete_fixup (T : rb_tree) (fuel : Nat) (node : Node) (h : Heap) : Option Heap := do
  let root := (h T.root).left
  let (x, h) ← fixupLoop T root fuel node h
  some (h.setRed x false)

def rb_delete (T : rb_tree) (fuel : Nat) (node : Node) (h : Heap) : Option Heap := do
  let z := node
  let y ← if (h z).left = T.nil ∨ (h z).right = T.nil then some z
    else rb_tree_successor T fuel z h
  let x := if (h y).left ≠ T.nil then (h y).left else (h y).right
  guard (y ≠ T.root ∧ y ≠ T.nil)
  let h := h.setParent x (h y).parent
  let h := relink .left y x h
  let need_fixup := !(h y).red
  let h := if y ≠ z then
      let h := relink .left z y h
      let h := h.setParent (h z).right y
      let h := h.setParent (h z).left y
      update h y (h z)
    else h
  if need_fixup then rb_delete_fixup T fuel x h else some h

/-! ## Neighbours -/

-- Here `NULL` is the inner `none`.

/-- Up until it comes from the right, or is above the root. -/
def belowLoop (T : rb_tree) (h : Heap) : Nat → Node → Node → Option Node
  | 0, _, _ => none
  | fuel + 1, x, y =>
    if x = (h y).left then
      if y = T.root then some T.nil else belowLoop T h fuel y (h y).parent
    else some y

def rb_tree_predecessor (T : rb_tree) (fuel : Nat) (node : Node) (h : Heap) : Option Node :=
  let y := (h node).left
  if y ≠ T.nil then endLoop T .right h fuel y
  else belowLoop T h fuel node (h node).parent

/-- `NULL` in place of `nil`. -/
def rb_tree.orNull (T : rb_tree) (node : Node) : Option Node :=
  if node ≠ T.nil then some node else none

def rb_node_prev (T : rb_tree) (fuel : Nat) (node : Node) (h : Heap) : Option (Option Node) := do
  let prev ← rb_tree_predecessor T fuel node h
  some (T.orNull prev)

def rb_node_next (T : rb_tree) (fuel : Nat) (node : Node) (h : Heap) : Option (Option Node) := do
  let next ← rb_tree_successor T fuel node h
  some (T.orNull next)

def rb_node_root (T : rb_tree) (h : Heap) : Option Node := T.orNull (h T.root).left

def rb_node_left (T : rb_tree) (node : Node) (h : Heap) : Option Node := T.orNull (h node).left

def rb_node_right (T : rb_tree) (node : Node) (h : Heap) : Option Node := T.orNull (h node).right

/-! ## The check -/

/-- The assertions of `check_tree` on a node that is not `nil`. -/
def NodeOk (T : rb_tree) (h : Heap) (node : Node) : Prop :=
  ((h node).left ≠ T.nil →
    T.compare node (h node).left ≥ 0 ∧ (h (h node).left).parent = node) ∧
  ((h node).right ≠ T.nil →
    T.compare node (h node).right ≤ 0 ∧ (h (h node).right).parent = node) ∧
  ((h node).red = true → (h (h node).left).red = false ∧ (h (h node).right).red = false)

instance (T : rb_tree) (h : Heap) (node : Node) : Decidable (NodeOk T h node) :=
  inferInstanceAs (Decidable (_ ∧ _ ∧ _))

def check_tree (T : rb_tree) (h : Heap) : Nat → Node → Option Nat
  | 0, _ => none
  | fuel + 1, node =>
    if node = T.nil then do
      guard ((h node).red = false)
      some 1
    else do
      guard (NodeOk T h node)
      let hb_left ← check_tree T h fuel (h node).left
      let hb_right ← check_tree T h fuel (h node).right
      guard (hb_left = hb_right)
      some (if (h node).red then hb_left else hb_left + 1)

end nehcpu.kernel.rbtree
