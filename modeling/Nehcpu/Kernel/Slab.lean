-- The slab allocator of `kmalloc.c`: the table of caches, the slabs with their chains of free
-- objects, and the pages that lead back to their slab. Addresses are numbers, since what the
-- allocator computes from its pages stays below 2^32, and a page is its place in `pages`.
import Mathlib.Logic.Function.Basic
import Mathlib.Data.Set.Basic

namespace nehcpu.kernel.kmem

open Function

/-! ## Caches -/

def PGSIZE : Nat := 4096

def KERNBASE : Nat := 0x80000000

def BUFCTL_END : Nat := 0xFFFFFFFF

def SLAB_LIMIT : Nat := 0xFFFFFFFE

def MIN_SIZE_ORDER : Nat := 5

def MAX_SIZE_ORDER : Nat := 17

def SLAB_CACHE_NUM : Nat := MAX_SIZE_ORDER - MIN_SIZE_ORDER + 1

def KMALLOC_MAX_ORDER : Nat := 10

def ALIGN_SHIFT : Nat := 4

/-- `sizeof(slab_t)`: six words. -/
def sizeof_slab : Nat := 24

def sizeof_bufctl : Nat := 4

def ROUNDUP_2N (a n : Nat) : Nat := (a + (1 <<< n) - 1) / (1 <<< n) * (1 <<< n)

/-- `kmem_cache_t` without its lists, which are part of the state. `slab_cachep` is the place of
the other cache in `slab_cache`. -/
structure Cache where
  objsize : Nat
  objsize_shift : Nat
  num : Nat
  offset : Nat
  off_slab : Bool
  page_order : Nat
  slab_cachep : Nat
deriving DecidableEq, Repr

def slab_mgmt_size (num : Nat) : Nat := ROUNDUP_2N (sizeof_slab + num * sizeof_bufctl) ALIGN_SHIFT

/-- `__slab_div_table`, which has one row. -/
def slab_div_table (order i : Nat) : Nat :=
  if order = 0 then [113, 59, 30, 15].getD i 0 else 0

/-- The loop of `cache_estimate`: fewer objects, until they fit. -/
def fitObjs (slab_size objsize : Nat) : Nat → Nat
  | 0 => 0
  | nr_objs + 1 =>
    if slab_size < slab_mgmt_size (nr_objs + 1) + (nr_objs + 1) * objsize then
      fitObjs slab_size objsize nr_objs
    else nr_objs + 1

/-- `cache_estimate`: the remainder and the number of objects. -/
def cache_estimate (order objsize_shift : Nat) (off_slab : Bool) : Nat × Nat :=
  let slab_size := PGSIZE <<< order
  let objsize := 1 <<< objsize_shift
  if off_slab then
    let nr_objs := min (slab_size >>> objsize_shift) SLAB_LIMIT
    (slab_size - nr_objs * objsize, nr_objs)
  else
    let nr_objs := min (fitObjs slab_size objsize (slab_div_table order (objsize_shift - 5))) SLAB_LIMIT
    (slab_size - nr_objs * objsize - slab_mgmt_size nr_objs, nr_objs)

/-- The loop of `calculate_slab_order`: what is left over, the number of objects and the order.
It panics when no order will do, or too many objects for the descriptor. -/
def calculate_slab_order (objsize_shift : Nat) (off_slab : Bool) :
    Nat → Nat → Option (Nat × Nat × Nat)
  | 0, _ => none
  | rounds + 1, order =>
    let (remainder, num) := cache_estimate order objsize_shift off_slab
    if num = 0 then calculate_slab_order objsize_shift off_slab rounds (order + 1)
    else if off_slab = true ∧ ((1 <<< objsize_shift) - sizeof_slab) / sizeof_bufctl < num then none
    else if remainder * 8 ≤ PGSIZE <<< order then some (remainder, num, order)
    else calculate_slab_order objsize_shift off_slab rounds (order + 1)

/-- `getorder`, which panics above the largest size. -/
def getorder (n : Nat) : Option Nat :=
  (List.range' MIN_SIZE_ORDER SLAB_CACHE_NUM).find? fun order => n ≤ 1 <<< order

def init_kmem_cache (objsize : Nat) : Option Cache := do
  let objsize := ROUNDUP_2N objsize ALIGN_SHIFT
  let off_slab := decide (PGSIZE >>> 3 ≤ objsize)
  let objsize_shift ← getorder objsize
  let (left_over, num, page_order) ←
    calculate_slab_order objsize_shift off_slab (KMALLOC_MAX_ORDER + 1) 0
  let mgmt_size := slab_mgmt_size num
  let off_slab := off_slab && decide (left_over < mgmt_size)
  if num = 0 then none
  else if off_slab then
    let order ← getorder mgmt_size
    return ⟨objsize, objsize_shift, num, 0, true, page_order, order - MIN_SIZE_ORDER⟩
  else return ⟨objsize, objsize_shift, num, mgmt_size, false, page_order, 0⟩

/-- The table that `slab_init` makes. -/
def slab_cache (c : Nat) : Cache :=
  (init_kmem_cache (1 <<< (c + MIN_SIZE_ORDER))).getD ⟨0, 0, 0, 0, false, 0, 0⟩

/-! ## State -/

/-- `slab_t`, and the array that follows it. -/
structure Slab where
  s_mem : Nat
  inuse : Nat
  offset : Nat
  free : Nat
  bufctl : Nat → Nat

/-- What a slab keeps in `struct Page`: the flag, and the two links of `page_link`. -/
structure PageLink where
  isSlab : Bool
  cache : Nat
  slabp : Nat

/-- The descriptors by their address, the two lists of each cache from the head, and the pages.
`taken` are the pages that came from the page allocator, and the clock counts its calls. -/
structure Slabs where
  slab : Nat → Slab
  full : Nat → List Nat
  notfull : Nat → List Nat
  page : Nat → PageLink
  taken : Nat → Bool
  tick : Nat

/-- What is known of the page allocator: it gives runs of pages that are not taken, or none, as
it likes each time. -/
structure PageAllocator where
  npage : Nat
  pick : (Nat → Bool) → Nat → Nat → Option Nat
  pick_free : ∀ {taken tick n page}, pick taken tick n = some page →
    page + n ≤ npage ∧ ∀ p, page ≤ p → p < page + n → taken p = false

/-! ## Pages -/

def alloc_pages (A : PageAllocator) (s : Slabs) (n : Nat) : Option Nat × Slabs :=
  match A.pick s.taken s.tick n with
  | none => (none, { s with tick := s.tick + 1 })
  | some page =>
    (some page,
      { s with
        taken := fun p => decide (page ≤ p ∧ p < page + n) || s.taken p
        tick := s.tick + 1 })

def free_pages (s : Slabs) (page n : Nat) : Slabs :=
  { s with taken := fun p => !decide (page ≤ p ∧ p < page + n) && s.taken p }

def page2kva (page : Nat) : Nat := KERNBASE + page * PGSIZE

/-- `kva2page`, which panics when there is no page. -/
def kva2page (A : PageAllocator) (kva : Nat) : Option Nat :=
  if KERNBASE ≤ kva ∧ (kva - KERNBASE) / PGSIZE < A.npage then some ((kva - KERNBASE) / PGSIZE)
  else none

/-- The first loop of `kmem_cache_grow`. -/
def setPages (s : Slabs) (page n c slabp : Nat) : Slabs :=
  { s with page := fun p => if page ≤ p ∧ p < page + n then ⟨true, c, slabp⟩ else s.page p }

/-- `ClearPageSlab` over a run. -/
def clearPages (s : Slabs) (page n : Nat) : Slabs :=
  { s with
    page := fun p =>
      if page ≤ p ∧ p < page + n then { s.page p with isSlab := false } else s.page p }

/-! ## Lists -/

/-- The links of the slab say what list it leaves. -/
def list_del (s : Slabs) (slabp : Nat) : Slabs :=
  { s with
    full := fun c => (s.full c).erase slabp
    notfull := fun c => (s.notfull c).erase slabp }

def addFull (s : Slabs) (c slabp : Nat) : Slabs :=
  { s with full := update s.full c (slabp :: s.full c) }

def addNotfull (s : Slabs) (c slabp : Nat) : Slabs :=
  { s with notfull := update s.notfull c (slabp :: s.notfull c) }

def Slabs.edit (s : Slabs) (slabp : Nat) (f : Slab → Slab) : Slabs :=
  { s with slab := update s.slab slabp (f (s.slab slabp)) }

/-! ## Allocation -/

/-- The end of `kmem_cache_slabmgmt`. -/
def initSlab (s : Slabs) (c page slabp : Nat) : Slabs :=
  s.edit slabp fun sl =>
    { sl with
      inuse := 0
      offset := (slab_cache c).offset
      s_mem := page2kva page + (slab_cache c).offset }

/-- `kmem_cache_slabmgmt`, with the `kmem_cache_alloc` that it calls. The outer `Option` is a
panic. -/
def kmem_cache_slabmgmt (A : PageAllocator) (alloc : Slabs → Nat → Option (Option Nat × Slabs))
    (s : Slabs) (c page : Nat) : Option (Option Nat × Slabs) :=
  if page < A.npage then
    if (slab_cache c).off_slab then
      match alloc s (slab_cache c).slab_cachep with
      | some (some slabp, s) => some (some slabp, initSlab s c page slabp)
      | r => r
    else some (some (page2kva page), initSlab s c page (page2kva page))
  else none

/-- The chain of a new slab. -/
def initChain (s : Slabs) (c slabp : Nat) : Slabs :=
  let num := (slab_cache c).num
  s.edit slabp fun sl =>
    { sl with
      bufctl := update (fun i => if i < num then i + 1 else sl.bufctl i) (num - 1) BUFCTL_END
      free := 0 }

/-- `kmem_cache_grow`: the flag is what it returns. -/
def kmem_cache_grow (A : PageAllocator) (alloc : Slabs → Nat → Option (Option Nat × Slabs))
    (s : Slabs) (c : Nat) : Option (Bool × Slabs) :=
  let n := 1 <<< (slab_cache c).page_order
  match alloc_pages A s n with
  | (none, s) => some (false, s)
  | (some page, s) =>
    match kmem_cache_slabmgmt A alloc s c page with
    | none => none
    | some (none, s) => some (false, free_pages s page n)
    | some (some slabp, s) =>
      some (true, addNotfull (initChain (setPages s page n c slabp) c slabp) c slabp)

/-- `kmem_cache_alloc_one`: the object and the state. -/
def kmem_cache_alloc_one (s : Slabs) (c slabp : Nat) : Nat × Slabs :=
  let sl := s.slab slabp
  let objp := sl.s_mem + sl.free * (slab_cache c).objsize
  let s := s.edit slabp fun sl => { sl with inuse := sl.inuse + 1, free := sl.bufctl sl.free }
  if (s.slab slabp).free = BUFCTL_END then (objp, addFull (list_del s slabp) c slabp)
  else (objp, s)

/-- `kmem_cache_alloc`. Each try takes one round, and so does the call for a descriptor. -/
def kmem_cache_alloc (A : PageAllocator) : Nat → Slabs → Nat → Option (Option Nat × Slabs)
  | 0, _, _ => none
  | rounds + 1, s, c =>
    match s.notfull c with
    | slabp :: _ =>
      let (objp, s) := kmem_cache_alloc_one s c slabp
      some (some objp, s)
    | [] =>
      match kmem_cache_grow A (kmem_cache_alloc A rounds) s c with
      | none => none
      | some (false, s) => some (none, s)
      | some (true, s) => kmem_cache_alloc A rounds s c

/-- The rounds that are enough: two tries, for the object and for a descriptor. -/
def ROUNDS : Nat := 4

/-- `kmalloc`: the outer `Option` is an assertion or a panic. -/
def kmalloc (A : PageAllocator) (s : Slabs) (size : Nat) : Option (Option Nat × Slabs) :=
  if size = 0 then none
  else
    match getorder size with
    | none => none
    | some order =>
      if MAX_SIZE_ORDER < order then some (none, s)
      else kmem_cache_alloc A ROUNDS s (order - MIN_SIZE_ORDER)

/-! ## Release -/

/-- `kmem_slab_destroy`, with the `kmem_cache_free` that it calls. -/
def kmem_slab_destroy (A : PageAllocator) (free : Slabs → Nat → Nat → Option Slabs) (s : Slabs)
    (c slabp : Nat) : Option Slabs :=
  let n := 1 <<< (slab_cache c).page_order
  match kva2page A ((s.slab slabp).s_mem - (s.slab slabp).offset) with
  | none => none
  | some page =>
    if ∀ i < n, (s.page (page + i)).isSlab = true then
      let s := free_pages (clearPages s page n) page n
      if (slab_cache c).off_slab then free s (slab_cache c).slab_cachep slabp else some s
    else none

def kmem_cache_free_one (A : PageAllocator) (free : Slabs → Nat → Nat → Option Slabs) (s : Slabs)
    (c slabp objp : Nat) : Option Slabs :=
  let objnr := (objp - (s.slab slabp).s_mem) >>> (slab_cache c).objsize_shift
  let s := s.edit slabp fun sl =>
    { sl with
      bufctl := update sl.bufctl objnr sl.free
      free := objnr
      inuse := sl.inuse - 1 }
  if (s.slab slabp).inuse = 0 then kmem_slab_destroy A free (list_del s slabp) c slabp
  else if (s.slab slabp).inuse = (slab_cache c).num - 1 then
    some (addNotfull (list_del s slabp) c slabp)
  else some s

/-- `kmem_cache_free`, where the call for a descriptor takes one round. -/
def kmem_cache_free (A : PageAllocator) : Nat → Slabs → Nat → Nat → Option Slabs
  | 0, _, _, _ => none
  | rounds + 1, s, c, objp =>
    match kva2page A objp with
    | none => none
    | some page =>
      if (s.page page).isSlab then
        kmem_cache_free_one A (kmem_cache_free A rounds) s c (s.page page).slabp objp
      else none

def kfree (A : PageAllocator) (s : Slabs) (objp : Nat) : Option Slabs :=
  match kva2page A objp with
  | none => none
  | some page => kmem_cache_free A ROUNDS s (s.page page).cache objp

/-! ## Runs -/

/-- Before the first call: the lists are empty, and memory holds anything. -/
def Slabs.boot (slab : Nat → Slab) (page : Nat → PageLink) : Slabs where
  slab := slab
  full _ := []
  notfull _ := []
  page := page
  taken _ := false
  tick := 0

/-- The allocator after any calls, with the live pointers and the sizes that were asked for. -/
inductive Reachable (A : PageAllocator) (slab : Nat → Slab) (page : Nat → PageLink) :
    Slabs → (Nat → Option Nat) → Prop
  | boot : Reachable A slab page (Slabs.boot slab page) fun _ => none
  | kmalloc {s live size objp s'} (hr : Reachable A slab page s live)
      (hsize : 1 ≤ size ∧ size ≤ 131072) (h : kmalloc A s size = some (some objp, s')) :
      Reachable A slab page s' (update live objp (some size))
  | kmalloc_none {s live size s'} (hr : Reachable A slab page s live)
      (hsize : 1 ≤ size ∧ size ≤ 131072) (h : kmalloc A s size = some (none, s')) :
      Reachable A slab page s' live
  | kfree {s live objp s'} (hr : Reachable A slab page s live) (hlive : live objp ≠ none)
      (h : kfree A s objp = some s') : Reachable A slab page s' (update live objp none)

end nehcpu.kernel.kmem
