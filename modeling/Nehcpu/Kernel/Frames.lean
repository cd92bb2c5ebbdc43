-- The page frames behind the page tables: `pmm.c` with the frames that the allocator gives out,
-- their reference counts and what stands in them. Here a page directory entry points to the
-- frame of its page table.
import Mathlib.Data.Finset.Prod
import Mathlib.Logic.Function.Basic
import Nehcpu.Lib.RefCount
import Nehcpu.Kernel.PageTable

namespace nehcpu.kernel.frames

open cpu Function

abbrev Page := BitVec 20

/-- What an allocator does: it gives out pages that are free, or none, as it likes each time.
`memory` says whether `kmalloc` finds memory. -/
structure Allocator where
  pick : (Page → Bool) → Nat → Option Page
  pick_free : ∀ {free tick page}, pick free tick = some page → free page = true
  memory : Nat → Bool

/-- The page directories with their entries, which stand in pages of their own, the words of each
frame, and `ref` and the state of each `struct Page`. The clock counts the calls of the
allocator. -/
structure Frames where
  dirs : Finset Nat
  pgdirs : Nat → Nat → Word
  mem : Page → Nat → Word
  ref : Page → Int
  free : Page → Bool
  tick : Nat

/-! ## Pages -/

/-- The page is not free any more. -/
def Frames.taken (s : Frames) (page : Page) : Frames :=
  { s with free := update s.free page false, tick := s.tick + 1 }

def alloc_page (A : Allocator) (s : Frames) : Option Page × Frames :=
  match A.pick s.free s.tick with
  | none => (none, { s with tick := s.tick + 1 })
  | some page => (some page, s.taken page)

/-- `free_page`: the allocator clears `ref`. -/
def free_page (s : Frames) (page : Page) : Frames :=
  { s with free := update s.free page true, ref := update s.ref page 0 }

def page_ref_inc (s : Frames) (page : Page) : Frames :=
  { s with ref := update s.ref page (s.ref page + 1) }

def page_ref_dec (s : Frames) (page : Page) : Frames :=
  { s with ref := update s.ref page (s.ref page - 1) }

/-- `memset(page, 0, PGSIZE)` -/
def clear_page (s : Frames) (page : Page) : Frames :=
  { s with mem := update s.mem page fun _ => 0#32 }

/-- `memcpy(dst, src, PGSIZE)` -/
def copy_page (s : Frames) (dst src : Page) : Frames :=
  { s with mem := update s.mem dst (s.mem src) }

/-! ## Entries -/

/-- A pointer to a page table entry: the frame of the table and the index. -/
structure PtePtr where
  table : Page
  index : Nat
deriving DecidableEq, Repr

def Frames.load (s : Frames) (ptep : PtePtr) : pte_t := s.mem ptep.table ptep.index

def Frames.store (s : Frames) (ptep : PtePtr) (pte : pte_t) : Frames :=
  { s with mem := update s.mem ptep.table (update (s.mem ptep.table) ptep.index pte) }

/-- The page of a present entry: `pte2page`, and `pde2page`. -/
def entryPage (entry : Word) : Option Page :=
  if ptep_present entry then some (pte2page entry) else none

/-- The page table that a directory entry points to. -/
def Frames.table (s : Frames) (pgdir i : Nat) : Option Page := entryPage (s.pgdirs pgdir i)

/-- The end of `get_pte`: the new page holds the page table of the address. -/
def newTable (s : Frames) (pgdir : Nat) (la : Word) (new_pte : Page) : Frames :=
  let s := clear_page (page_ref_inc s new_pte) new_pte
  let pde := page2pa new_pte ||| (PTE_U ||| PTE_P ||| PTE_W)
  { s with pgdirs := update s.pgdirs pgdir (update (s.pgdirs pgdir) (PDX la) pde) }

def get_pte (A : Allocator) (s : Frames) (pgdir : Nat) (la : Word) (create : Bool) :
    Option PtePtr × Frames :=
  match s.table pgdir (PDX la) with
  | some table => (some ⟨table, PTX la⟩, s)
  | none =>
    if create = false then (none, s)
    else
      match alloc_page A s with
      | (none, s) => (none, s)
      | (some new_pte, s) => (some ⟨new_pte, PTX la⟩, newTable s pgdir la new_pte)

/-- `page_remove_pte`, whose flush of the TLB is that of the other model. -/
def page_remove_pte (s : Frames) (ptep : PtePtr) : Frames :=
  if ptep_present (s.load ptep) then
    let page := pte2page (s.load ptep)
    let s := page_ref_dec s page
    let s := if s.ref page = 0 then free_page s page else s
    s.store ptep 0#32
  else s

def page_remove (A : Allocator) (s : Frames) (pgdir : Nat) (la : Word) : Frames :=
  match get_pte A s pgdir la false with
  | (none, s) => s
  | (some ptep, s) => page_remove_pte s ptep

/-- `page_insert`: the flag is `ret == 0`. -/
def page_insert (A : Allocator) (s : Frames) (pgdir : Nat) (page : Page) (la perm : Word) :
    Bool × Frames :=
  match get_pte A s pgdir la true with
  | (none, s) => (false, s)
  | (some ptep, s) =>
    let s := page_ref_inc s page
    let s :=
      if ptep_present (s.load ptep) then
        if pte2page (s.load ptep) = page then page_ref_dec s page else page_remove_pte s ptep
      else s
    (true, s.store ptep (page2pa page ||| PTE_P ||| perm))

def pgdir_alloc_page (A : Allocator) (s : Frames) (pgdir : Nat) (la perm : Word) :
    Option Page × Frames :=
  match alloc_page A s with
  | (none, s) => (none, s)
  | (some page, s) =>
    match page_insert A s pgdir page la perm with
    | (false, s) => (none, free_page s page)
    | (true, s) => (some page, s)

/-- The loop of `unmap_range`, with the rounds that are left at most. -/
def unmapLoop (A : Allocator) (pgdir : Nat) (stop : Word) : Nat → Word → Frames → Frames
  | 0, _, s => s
  | rounds + 1, start, s =>
    match get_pte A s pgdir start false with
    | (none, s) =>
      let start := ROUNDDOWN_2N (start + PTSIZE) PTSHIFT
      if start ≠ 0#32 ∧ start < stop then unmapLoop A pgdir stop rounds start s else s
    | (some ptep, s) =>
      let s := if s.load ptep ≠ 0#32 then page_remove_pte s ptep else s
      let start := start + PGSIZE
      if start ≠ 0#32 ∧ start < stop then unmapLoop A pgdir stop rounds start s else s

/-- `unmap_range`, which fails an assertion on other ranges. -/
def unmap_range (A : Allocator) (s : Frames) (pgdir : Nat) (start stop : Word) : Option Frames :=
  if pageAligned start ∧ pageAligned stop ∧ USER_ACCESS start stop then
    some (unmapLoop A pgdir stop NPAGES start s)
  else none

/-- `setup_pgdir`, where the copy of `boot_pgdir` is empty. -/
def setup_pgdir (s : Frames) (pgdir : Nat) : Frames :=
  { s with dirs := insert pgdir s.dirs, pgdirs := update s.pgdirs pgdir fun _ => 0#32 }

/-! ## References -/

/-- The entries of the page tables: the directory, the entry in it and the entry of the table. -/
abbrev Slot := Nat × Nat × Nat

def Frames.slots (s : Frames) : Finset Slot :=
  s.dirs ×ˢ (Finset.range 1024 ×ˢ Finset.range 1024)

/-- The page that an entry maps. -/
def Frames.maps (s : Frames) (k : Slot) : Option Page :=
  (s.table k.1 k.2.1).bind fun table => entryPage (s.load ⟨table, k.2.2⟩)

/-- The number of present entries that map a page. -/
def Frames.count (s : Frames) (page : Page) : Nat := refcount.refs s.slots s.maps page

/-- The page holds a page table. -/
def Frames.IsTable (s : Frames) (page : Page) : Prop :=
  ∃ d ∈ s.dirs, ∃ i < 1024, s.table d i = some page

instance (s : Frames) (page : Page) : Decidable (s.IsTable page) :=
  inferInstanceAs (Decidable (∃ d ∈ s.dirs, ∃ i < 1024, _))

/-! ## Runs -/

/-- What the kernel does with pages. `alloc_page` is a page for user memory. -/
inductive FrameOp
  | setup_pgdir (pgdir : Nat)
  | alloc_page
  | page_insert (pgdir : Nat) (page : Page) (la perm : Word)
  | page_remove (pgdir : Nat) (la : Word)
  | pgdir_alloc_page (pgdir : Nat) (la perm : Word)
  | unmap_range (pgdir : Nat) (start stop : Word)

/-- One operation. There is none on a directory that does not exist, with a page that is free or
a page table, with bits beside the permissions, or after an assertion that failed. -/
def FrameOp.step (A : Allocator) (s : Frames) : FrameOp → Option Frames
  | .setup_pgdir pgdir => if pgdir ∈ s.dirs then none else some (frames.setup_pgdir s pgdir)
  | .alloc_page => some (frames.alloc_page A s).2
  | .page_insert pgdir page la perm =>
    if pgdir ∈ s.dirs ∧ s.free page = false ∧ ¬ s.IsTable page ∧ perm < PGSIZE then
      some (frames.page_insert A s pgdir page la perm).2
    else none
  | .page_remove pgdir la =>
    if pgdir ∈ s.dirs then some (frames.page_remove A s pgdir la) else none
  | .pgdir_alloc_page pgdir la perm =>
    if pgdir ∈ s.dirs ∧ perm < PGSIZE then some (frames.pgdir_alloc_page A s pgdir la perm).2
    else none
  | .unmap_range pgdir start stop =>
    if pgdir ∈ s.dirs then frames.unmap_range A s pgdir start stop else none

/-- Before the first directory: some pages are free, and the memory holds anything. -/
def Frames.boot (pgdirs : Nat → Nat → Word) (mem : Page → Nat → Word) (free : Page → Bool) :
    Frames :=
  ⟨∅, pgdirs, mem, fun _ => 0, free, 0⟩

end nehcpu.kernel.frames
