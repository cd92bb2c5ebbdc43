-- The page tables of the kernel and the functions of `pmm.c` that edit them, with the
-- TLB flush that each of them makes.
import Nehcpu.Kernel.TlbContract

namespace nehcpu.kernel

open cpu

/-! ## Addresses -/

abbrev USERBASE : Word := 0x10000000#32
abbrev USERTOP : Word := 0x80000000#32

abbrev PGSIZE : Word := 4096#32
abbrev PGSHIFT : Nat := 12
abbrev PTSIZE : Word := 4194304#32
abbrev PTSHIFT : Nat := 22

/-- The index into the page directory. -/
def PDX (la : Word) : Nat := (la.extractLsb' 22 10).toNat

def ROUNDDOWN_2N (a : Word) (n : Nat) : Word := (a >>> n) <<< n

def ROUNDUP_2N (a : Word) (n : Nat) : Word := ROUNDDOWN_2N (a + (1#32 <<< n) - 1#32) n

/-- `start % PGSIZE == 0` -/
def pageAligned (a : Word) : Prop := a % PGSIZE = 0#32

instance (a : Word) : Decidable (pageAligned a) := inferInstanceAs (Decidable (_ = _))

/-- A range of user addresses that is not empty. -/
def USER_ACCESS (start stop : Word) : Prop := USERBASE ≤ start ∧ start < stop ∧ stop ≤ USERTOP

instance (start stop : Word) : Decidable (USER_ACCESS start stop) :=
  inferInstanceAs (Decidable (_ ∧ _ ∧ _))

/-! ## Page directories -/

abbrev PageTable := Nat → pte_t

/-- A page directory: the page table of each present directory entry. -/
abbrev Pgdir := Nat → Option PageTable

/-- A directory without a page table, as `memset` leaves it. -/
def Pgdir.empty : Pgdir := fun _ => none

/-- The entry for an address, zero where there is no page table. -/
def pteAt (pd : Pgdir) (la : Word) : pte_t :=
  match pd (PDX la) with
  | none => 0#32
  | some table => table (PTX la)

/-- `*ptep = pte`, in the page table that is there. -/
def setPte (pd : Pgdir) (la : Word) (pte : pte_t) : Pgdir := fun i =>
  if i = PDX la then (pd i).map fun table j => if j = PTX la then pte else table j else pd i

/-- `get_pte`: the directory with the page table of the address in it. `create` says that
the caller asks for a missing table and that a page is left for it. -/
def get_pte (pd : Pgdir) (la : Word) (create : Bool) : Option Pgdir :=
  match pd (PDX la) with
  | some _ => some pd
  | none => if create then some fun i => if i = PDX la then some fun _ => 0#32 else pd i else none

/-! ## The memory that the functions share -/

/-- The TLB, the page directories by their page, and the pages that are taken. -/
structure Vm where
  tlb : Tlb
  pgdirs : Nat → Pgdir
  current_pgdir : Nat
  taken : Nat → Bool

def Vm.setPgdir (vm : Vm) (pgdir : Nat) (pd : Pgdir) : Vm :=
  { vm with pgdirs := fun f => if f = pgdir then pd else vm.pgdirs f }

/-- An index beyond the entries of the CPU counts modulo 16: `cp0_index[3: 0]`. -/
def write_one_tlb (tlb : Tlb) (index : Nat) (w : EntryWords) : Tlb :=
  tlb.next ⟨true, BitVec.ofNat 4 index, w.entry⟩

/-- What the loop of `tlb_invalidate_all` writes. -/
def invalidWords (i : Nat) : EntryWords :=
  ⟨0x80000000#32 + (BitVec.ofNat 32 i <<< 20), 0#32, 0#32⟩

/-- The first `n` rounds of the loop. -/
def invalidateLoop (n : Nat) (tlb : Tlb) : Tlb :=
  (List.range n).foldl (fun tlb i => write_one_tlb tlb i (invalidWords i)) tlb

def tlb_invalidate_all (vm : Vm) : Vm := { vm with tlb := invalidateLoop 128 vm.tlb }

def lcr3 (vm : Vm) (cr3 : Nat) : Vm := { vm with current_pgdir := cr3 }

/-! ## `pmm.c` -/

/-- `page2pa` -/
def page2pa (page : BitVec 20) : Word := page ++ 0#12

/-- The page of a present entry. -/
def pte2page (pte : pte_t) : BitVec 20 := pte.extractLsb' 12 20

def page_remove_pte (vm : Vm) (pgdir : Nat) (la : Word) : Vm :=
  tlb_invalidate_all
    (if ptep_present (pteAt (vm.pgdirs pgdir) la) then
      vm.setPgdir pgdir (setPte (vm.pgdirs pgdir) la 0#32)
    else vm)

def page_remove (vm : Vm) (pgdir : Nat) (la : Word) : Vm :=
  match get_pte (vm.pgdirs pgdir) la false with
  | none => vm
  | some _ => page_remove_pte vm pgdir la

/-- `page_insert`, which fails only for want of a page table. -/
def page_insert (vm : Vm) (pgdir : Nat) (page : BitVec 20) (la perm : Word) (create : Bool) :
    Option Vm :=
  match get_pte (vm.pgdirs pgdir) la create with
  | none => none
  | some pd =>
    let vm := vm.setPgdir pgdir pd
    let pte := pteAt pd la
    let vm :=
      if ptep_present pte then
        if pte2page pte = page then vm else page_remove_pte vm pgdir la
      else vm
    let vm := vm.setPgdir pgdir (setPte (vm.pgdirs pgdir) la (page2pa page ||| PTE_P ||| perm))
    some (tlb_invalidate_all vm)

/-- The loop of `unmap_range`, with the rounds that are left at most. -/
def unmapLoop (pgdir : Nat) (stop : Word) : Nat → Word → Vm → Vm
  | 0, _, vm => vm
  | rounds + 1, start, vm =>
    let (vm, start) :=
      match vm.pgdirs pgdir (PDX start) with
      | none => (vm, ROUNDDOWN_2N (start + PTSIZE) PTSHIFT)
      | some _ =>
        (if pteAt (vm.pgdirs pgdir) start ≠ 0#32 then page_remove_pte vm pgdir start else vm,
          start + PGSIZE)
    if start ≠ 0#32 ∧ start < stop then unmapLoop pgdir stop rounds start vm else vm

/-- The pages of the address space bound the rounds. -/
abbrev NPAGES : Nat := 1048576

def unmap_range (vm : Vm) (pgdir : Nat) (start stop : Word) : Option Vm :=
  if pageAligned start ∧ pageAligned stop ∧ USER_ACCESS start stop then
    some (unmapLoop pgdir stop NPAGES start vm)
  else none

def exitLoop (pgdir : Nat) (stop : Word) : Nat → Word → Vm → Vm
  | 0, _, vm => vm
  | rounds + 1, start, vm =>
    let vm := vm.setPgdir pgdir fun i => if i = PDX start then none else vm.pgdirs pgdir i
    let start := start + PTSIZE
    if start ≠ 0#32 ∧ start < stop then exitLoop pgdir stop rounds start vm else vm

def exit_range (vm : Vm) (pgdir : Nat) (start stop : Word) : Option Vm :=
  if pageAligned start ∧ pageAligned stop ∧ USER_ACCESS start stop then
    some (exitLoop pgdir stop NPAGES (ROUNDDOWN_2N start PTSHIFT) vm)
  else none

/-- The allocator during a copy: the page for the copy of an address, and whether there is
memory for its page table and for an area that starts there. -/
structure CopyPages where
  page : Word → Option (BitVec 20)
  table : Word → Bool
  vma : Word → Bool

/-- One present page of `copy_range`. The flag is `ret == 0`; no page for the copy fails an
assertion. -/
def copyPage (a : CopyPages) (vm : Vm) (dst : Nat) (start : Word) (pte : pte_t) :
    Option (Vm × Bool) :=
  match get_pte (vm.pgdirs dst) start (a.table start) with
  | none => some (vm, false)
  | some pd =>
    match a.page start with
    | none => none
    | some page =>
      (page_insert (vm.setPgdir dst pd) dst page start (pte &&& (PTE_U ||| PTE_W ||| PTE_P)) true).map
        fun vm => (vm, true)

/-- The loop of `copy_range`. -/
def copyLoop (a : CopyPages) (dst src : Nat) (stop : Word) : Nat → Word → Vm → Option (Vm × Bool)
  | 0, _, vm => some (vm, true)
  | rounds + 1, start, vm =>
    match vm.pgdirs src (PDX start) with
    | none =>
      let start := ROUNDDOWN_2N (start + PTSIZE) PGSHIFT
      if start ≠ 0#32 ∧ start < stop then copyLoop a dst src stop rounds start vm
      else some (vm, true)
    | some _ =>
      let pte := pteAt (vm.pgdirs src) start
      match if ptep_present pte then copyPage a vm dst start pte else some (vm, true) with
      | none => none
      | some (vm, false) => some (vm, false)
      | some (vm, true) =>
        let start := start + PGSIZE
        if start ≠ 0#32 ∧ start < stop then copyLoop a dst src stop rounds start vm
        else some (vm, true)

def copy_range (a : CopyPages) (vm : Vm) (dst src : Nat) (start stop : Word) :
    Option (Vm × Bool) :=
  if pageAligned start ∧ pageAligned stop ∧ USER_ACCESS start stop then
    copyLoop a dst src stop NPAGES start vm
  else none

end nehcpu.kernel
