-- The buddy allocator of `buddy_pmm.c`: the free lists by order, the flags of the pages and the
-- loops that cut blocks and put them together. A page is its place in the array `pages`. The
-- counters stay far below 2^32, since no count is larger than `npage`.
import Mathlib.Logic.Function.Basic
import Mathlib.Data.Set.Basic
import Mathlib.Data.Int.Notation
import Mathlib.Algebra.Ring.Int.Defs

namespace nehcpu.kernel.buddy

open Function

def MAX_ORDER : Nat := 10

def MAX_ZONE_NUM : Int := 10

/-- `struct Page`: `reserved` and `isProperty` are the bits of `flags` that are read here. -/
structure Page where
  ref : Int
  reserved : Bool
  isProperty : Bool
  property : Nat
  zone_num : Int
deriving DecidableEq, Repr

/-- The pages, `free_area` with its lists from the head, and the zones. -/
structure Buddy where
  npage : Nat
  pages : Nat → Page
  free_list : Nat → List Nat
  nr_free : Nat → Int
  mem_base : Int → Nat
  zones : Int

/-! ## Pages and lists -/

def Buddy.edit (b : Buddy) (page : Nat) (f : Page → Page) : Buddy :=
  { b with pages := update b.pages page (f (b.pages page)) }

def SetPageReserved (b : Buddy) (page : Nat) : Buddy :=
  b.edit page fun p => { p with reserved := true }

def ClearPageProperty (b : Buddy) (page : Nat) : Buddy :=
  b.edit page fun p => { p with isProperty := false }

def nr_free_add (b : Buddy) (order : Nat) (n : Int) : Buddy :=
  { b with nr_free := update b.nr_free order (b.nr_free order + n) }

def list_add (b : Buddy) (order page : Nat) : Buddy :=
  { b with free_list := update b.free_list order (page :: b.free_list order) }

/-- The links of the page say what list it leaves, so no order is needed. -/
def list_del (b : Buddy) (page : Nat) : Buddy :=
  { b with free_list := fun order => (b.free_list order).erase page }

/-- The lines that make a block free: they stand three times in the source. -/
def addBlock (b : Buddy) (order page : Nat) : Buddy :=
  let b := b.edit page fun p => { p with property := order, isProperty := true }
  list_add (nr_free_add b order 1) order page

/-- The lines that take a block out of its list. -/
def delBlock (b : Buddy) (order page : Nat) : Buddy :=
  list_del (nr_free_add b order (-1)) page

/-! ## The start -/

/-- `page_init` before `init_memmap`: all pages are reserved, and the other fields hold what
the memory held. -/
def page_init (npage : Nat) (pages : Nat → Page) : Buddy where
  npage := npage
  pages page := { pages page with reserved := true }
  free_list _ := []
  nr_free _ := 0
  mem_base _ := 0
  zones := 0

/-- The inner loop of `buddy_init_memmap`, with the rounds that are left at most. -/
def initOrder (order : Nat) : Nat → Buddy → Nat → Nat → Buddy × Nat × Nat
  | 0, b, page, n => (b, page, n)
  | rounds + 1, b, page, n =>
    if 1 <<< order ≤ n then
      initOrder order rounds (addBlock b order page) (page + 1 <<< order) (n - 1 <<< order)
    else (b, page, n)

/-- The outer loop, from an order down. -/
def initOrders : Nat → Buddy → Nat → Nat → Buddy
  | 0, b, page, n => (initOrder 0 n b page n).1
  | order + 1, b, page, n =>
    let (b, page, n) := initOrder (order + 1) n b page n
    if n ≠ 0 then initOrders order b page n else b

/-- `buddy_init_memmap`, which gives nothing when an assertion fails. -/
def buddy_init_memmap (b : Buddy) (base n : Nat) : Option Buddy :=
  if 0 < n ∧ b.zones < MAX_ZONE_NUM ∧ ∀ i < n, (b.pages (base + i)).reserved = true then
    let pages page :=
      if base ≤ page ∧ page < base + n then
        { ref := 0, reserved := false, isProperty := false, property := 0, zone_num := b.zones }
      else b.pages page
    let mem_base := update b.mem_base b.zones base
    let b := { b with pages := pages, mem_base := mem_base, zones := b.zones + 1 }
    some (initOrders MAX_ORDER b base n)
  else none

/-! ## Allocation -/

/-- `getorder`, which panics above the largest block. -/
def getorder (n : Nat) : Option Nat :=
  (List.range (MAX_ORDER + 1)).find? fun order => n ≤ 1 <<< order

/-- The loop that halves the block of order `order + d`. -/
def splitBlock (order page : Nat) : Nat → Buddy → Buddy
  | 0, b => b
  | d + 1, b => splitBlock order page d (addBlock b (order + d) (page + 1 <<< (order + d)))

/-- The loop over the orders, with the rounds that are left. -/
def allocLoop (order : Nat) : Nat → Nat → Buddy → Option Nat × Buddy
  | 0, _, b => (none, b)
  | rounds + 1, cur_order, b =>
    match b.free_list cur_order with
    | [] => allocLoop order rounds (cur_order + 1) b
    | page :: _ =>
      let b := splitBlock order page (cur_order - order) (delBlock b cur_order page)
      (some page, ClearPageProperty b page)

/-- `buddy_alloc_pages_sub`: the outer `Option` is its assertion. -/
def buddy_alloc_pages_sub (b : Buddy) (order : Nat) : Option (Option Nat × Buddy) :=
  if order ≤ MAX_ORDER then some (allocLoop order (MAX_ORDER + 1 - order) order b) else none

/-! ## Release -/

def page_is_buddy (b : Buddy) (page order : Nat) (zone_num : Int) : Bool :=
  if page < b.npage then
    if (b.pages page).zone_num = zone_num then
      !(b.pages page).reserved && (b.pages page).isProperty && (b.pages page).property == order
    else false
  else false

def page2idx (b : Buddy) (page : Nat) : Nat := page - b.mem_base (b.pages page).zone_num

def idx2page (b : Buddy) (zone_num : Int) (idx : Nat) : Nat := b.mem_base zone_num + idx

/-- The loop that puts a block together with its buddies, with the rounds that are left at
most. -/
def coalesce (zone_num : Int) : Nat → Buddy → Nat → Nat → Buddy × Nat × Nat
  | 0, b, order, page_idx => (b, order, page_idx)
  | rounds + 1, b, order, page_idx =>
    if order < MAX_ORDER then
      let buddy_idx := page_idx ^^^ (1 <<< order)
      let buddy := idx2page b zone_num buddy_idx
      if page_is_buddy b buddy order zone_num then
        let b := ClearPageProperty (delBlock b order buddy) buddy
        coalesce zone_num rounds b (order + 1) (page_idx &&& buddy_idx)
      else (b, order, page_idx)
    else (b, order, page_idx)

def buddy_free_pages_sub (b : Buddy) (base order : Nat) : Option Buddy :=
  let page_idx := page2idx b base
  if page_idx &&& (1 <<< order - 1) = 0 ∧
      ∀ i < 1 <<< order, (b.pages (base + i)).reserved = false ∧
        (b.pages (base + i)).isProperty = false then
    let pages page :=
      if base ≤ page ∧ page < base + 1 <<< order then
        { b.pages page with reserved := false, isProperty := false, ref := 0 }
      else b.pages page
    let b := { b with pages := pages }
    let zone_num := (b.pages base).zone_num
    let (b, order, page_idx) := coalesce zone_num MAX_ORDER b order page_idx
    some (addBlock b order (idx2page b zone_num page_idx))
  else none

/-- The first loop of `buddy_free_pages`. The rounds end when `order` is past `MAX_ORDER`, where
the assertion fails. -/
def freeUp : Nat → Buddy → Nat → Nat → Nat → Option (Buddy × Nat × Nat × Nat)
  | 0, b, base, n, order => if 1 <<< order ≤ n then none else some (b, base, n, order)
  | rounds + 1, b, base, n, order =>
    if 1 <<< order ≤ n then
      if page2idx b base &&& 1 <<< order ≠ 0 then
        match buddy_free_pages_sub b base order with
        | none => none
        | some b => freeUp rounds b (base + 1 <<< order) (n - 1 <<< order) (order + 1)
      else freeUp rounds b base n (order + 1)
    else some (b, base, n, order)

/-- The inner loop of the second loop: `order` goes down to a block that the rest can fill. -/
def fitOrder (n : Nat) : Nat → Nat
  | 0 => 0
  | order + 1 => if n < 1 <<< (order + 1) then fitOrder n order else order + 1

/-- The second loop, with the rounds that are left at most. -/
def freeDown : Nat → Buddy → Nat → Nat → Nat → Option Buddy
  | 0, b, _, n, _ => if n ≠ 0 then none else some b
  | rounds + 1, b, base, n, order =>
    if n ≠ 0 then
      let order := fitOrder n order
      match buddy_free_pages_sub b base order with
      | none => none
      | some b => freeDown rounds b (base + 1 <<< order) (n - 1 <<< order) order
    else some b

def buddy_free_pages (b : Buddy) (base n : Nat) : Option Buddy :=
  if n = 0 then none
  else if n = 1 then buddy_free_pages_sub b base 0
  else
    match freeUp (MAX_ORDER + 1) b base n 0 with
    | none => none
    | some (b, base, n, order) => freeDown n b base n order

/-- `buddy_alloc_pages`: the block that is left over goes back through `free_pages`. -/
def buddy_alloc_pages (b : Buddy) (n : Nat) : Option (Option Nat × Buddy) :=
  if n = 0 then none
  else
    match getorder n with
    | none => none
    | some order =>
      match buddy_alloc_pages_sub b order with
      | some (some page, b) =>
        if n ≠ 1 <<< order then
          (buddy_free_pages b (page + n) (1 <<< order - n)).map fun b => (some page, b)
        else some (some page, b)
      | r => r

def buddy_nr_free_pages (b : Buddy) : Int :=
  ((List.range (MAX_ORDER + 1)).map fun order => b.nr_free order * (1 <<< order : Nat)).sum

/-! ## Runs -/

/-- The pages from `base`. -/
def pageRun (base n : Nat) : Set Nat := {page | base ≤ page ∧ page < base + n}

/-- The allocator after any calls on a map of `n` pages from `base`, with the pages that are
allocated and not freed again. A caller asks for 1 to 1024 pages and frees up to 1024 pages that
stand side by side, whatever calls they came from. -/
inductive Reachable (npage : Nat) (memory : Nat → Page) (base n : Nat) : Buddy → Set Nat → Prop
  | init {b} (h : buddy_init_memmap (page_init npage memory) base n = some b) :
      Reachable npage memory base n b ∅
  | alloc {b live k page b'} (hr : Reachable npage memory base n b live) (hk : 1 ≤ k ∧ k ≤ 1024)
      (h : buddy_alloc_pages b k = some (some page, b')) :
      Reachable npage memory base n b' (live ∪ pageRun page k)
  | alloc_none {b live k b'} (hr : Reachable npage memory base n b live) (hk : 1 ≤ k ∧ k ≤ 1024)
      (h : buddy_alloc_pages b k = some (none, b')) : Reachable npage memory base n b' live
  | free {b live k page b'} (hr : Reachable npage memory base n b live) (hk : 1 ≤ k ∧ k ≤ 1024)
      (hlive : pageRun page k ⊆ live) (h : buddy_free_pages b page k = some b') :
      Reachable npage memory base n b' (live \ pageRun page k)

end nehcpu.kernel.buddy
