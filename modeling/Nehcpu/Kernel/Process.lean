-- Processes and their memory, `vmm.c`, `proc.c` and the TLB miss handler of `trap.c`,
-- and the kernel as a machine: the pieces of its code that run without touching user
-- memory and without giving the CPU away, in any order that the code allows.
import Nehcpu.Kernel.PageTable

namespace nehcpu.kernel

open cpu

/-! ## Memory areas -/

abbrev VM_READ : Word := 1#32
abbrev VM_WRITE : Word := 2#32
abbrev VM_EXEC : Word := 4#32

/-- `struct vma_struct` -/
structure Vma where
  vm_start : Word
  vm_end : Word
  vm_flags : Word
deriving DecidableEq, Repr

/-- `struct mm_struct` -/
structure Mm where
  mmap_list : List Vma
  mmap_cache : Option Vma
  pgdir : Nat
  map_count : Nat
  mm_count : Nat
deriving DecidableEq, Repr

/-- `mm_create` and then `setup_pgdir` -/
def mm_create (pgdir : Nat) : Mm := ⟨[], none, pgdir, 0, 0⟩

def find_vma (mm : Mm) (addr : Word) : Option Vma × Mm :=
  let cached := mm.mmap_cache.filter fun vma => vma.vm_start ≤ addr ∧ addr < vma.vm_end
  let vma := cached.or (mm.mmap_list.find? fun vma => addr < vma.vm_end)
  (vma, if vma.isSome then { mm with mmap_cache := vma } else mm)

def check_vma_overlap (prev next : Vma) : Prop :=
  prev.vm_start < prev.vm_end ∧ prev.vm_end ≤ next.vm_start ∧ next.vm_start < next.vm_end

instance (prev next : Vma) : Decidable (check_vma_overlap prev next) :=
  inferInstanceAs (Decidable (_ ∧ _ ∧ _))

/-- `insert_vma_struct`, where an area in the way fails an assertion. -/
def insert_vma_struct (list : List Vma) (vma : Vma) : Option (List Vma) :=
  let before := list.takeWhile fun v => v.vm_start ≤ vma.vm_start
  let after := list.dropWhile fun v => v.vm_start ≤ vma.vm_start
  if vma.vm_start < vma.vm_end ∧ (∀ prev ∈ before.getLast?, check_vma_overlap prev vma) ∧
      (∀ next ∈ after.head?, check_vma_overlap vma next) then
    some (before ++ vma :: after)
  else none

/-- The end of `insert_vma_struct`: `list` has the new area. -/
def Mm.linked (mm : Mm) (list : List Vma) : Mm :=
  { mm with mmap_list := list, map_count := mm.map_count + 1 }

/-- `mm_map`, where `memory` says that `vma_create` gets its structure. The flag is
`ret == 0`. -/
def mm_map (mm : Mm) (addr len vm_flags : Word) (memory : Bool) : Option (Mm × Bool) :=
  let start := ROUNDDOWN_2N addr PGSHIFT
  let stop := ROUNDUP_2N (addr + len) PGSHIFT
  if ¬ USER_ACCESS start stop then some (mm, false)
  else
    let (vma, mm) := find_vma mm start
    if ∃ v ∈ vma, v.vm_start < stop then some (mm, false)
    else if memory = false then some (mm, false)
    else
      match insert_vma_struct mm.mmap_list ⟨start, stop, vm_flags⟩ with
      | none => none
      | some list => some (mm.linked list, true)

/-- The loop of `dup_mmap` over the areas, the last first. -/
def dupLoop (a : CopyPages) (src : Nat) : List Vma → Vm → Mm → Option (Vm × Mm × Bool)
  | [], vm, mm => some (vm, mm, true)
  | vma :: vmas, vm, mm =>
    if a.vma vma.vm_start = false then some (vm, mm, false)
    else
      match insert_vma_struct mm.mmap_list vma with
      | none => none
      | some list =>
        let mm := mm.linked list
        match copy_range a vm mm.pgdir src vma.vm_start vma.vm_end with
        | none => none
        | some (vm, false) => some (vm, mm, false)
        | some (vm, true) => dupLoop a src vmas vm mm

def dup_mmap (a : CopyPages) (vm : Vm) (dst src : Mm) : Option (Vm × Mm × Bool) :=
  dupLoop a src.pgdir src.mmap_list.reverse vm dst

/-- `exit_mmap` -/
def exit_mmap (vm : Vm) (mm : Mm) : Option Vm :=
  if mm.mm_count = 0 then
    (mm.mmap_list.foldlM (fun vm vma => unmap_range vm mm.pgdir vma.vm_start vma.vm_end) vm).bind
      fun vm => mm.mmap_list.foldlM
        (fun vm vma => exit_range vm mm.pgdir vma.vm_start vma.vm_end) vm
  else none

/-! ## Page directories of processes -/

/-- `alloc_page` for a page directory, and the copy of `boot_pgdir` into it. -/
def setup_pgdir (vm : Vm) (boot_pgdir pgdir : Nat) : Vm :=
  { vm.setPgdir pgdir (vm.pgdirs boot_pgdir) with
    taken := fun f => if f = pgdir then true else vm.taken f }

def put_pgdir (vm : Vm) (mm : Mm) : Vm :=
  { vm with taken := fun f => if f = mm.pgdir then false else vm.taken f }

/-- The end of the memory of a process: `lcr3(boot_cr3)`, and with the last reference the
areas and the directory go. -/
def leave_mm (vm : Vm) (boot_pgdir : Nat) (mm : Mm) : Option Vm :=
  let vm := lcr3 vm boot_pgdir
  if mm.mm_count - 1 = 0 then
    (exit_mmap vm { mm with mm_count := mm.mm_count - 1 }).map fun vm => put_pgdir vm mm
  else some vm

/-! ## The page fault -/

/-- What the allocator gives a page fault: the page, and whether one is left for a table. -/
structure FaultPages where
  page : Option (BitVec 20)
  table : Bool

/-- `get_error_code` -/
def get_error_code (write : Bool) (pte : pte_t) : Nat :=
  (if ptep_present pte then 1 else 0) + (if write then 2 else 0)

/-- The permission check of `do_pgfault`. -/
def faultAllowed (error_code : Nat) (vm_flags : Word) : Bool :=
  match error_code with
  | 1 => false
  | 0 => vm_flags &&& (VM_READ ||| VM_EXEC) != 0#32
  | _ => vm_flags &&& VM_WRITE != 0#32

/-- `do_pgfault`: the flag is `ret == 0`. -/
def do_pgfault (a : FaultPages) (vm : Vm) (mm : Mm) (error_code : Nat) (addr : Word) :
    Vm × Mm × Bool :=
  let (vma, mm) := find_vma mm addr
  match vma with
  | none => (vm, mm, false)
  | some vma =>
    if addr < vma.vm_start ∨ faultAllowed error_code vma.vm_flags = false then (vm, mm, false)
    else
      let perm := if vma.vm_flags &&& VM_WRITE != 0#32 then PTE_U ||| PTE_W else PTE_U
      let addr := ROUNDDOWN_2N addr PGSHIFT
      match get_pte (vm.pgdirs mm.pgdir) addr a.table with
      | none => (vm, mm, false)
      | some pd =>
        let vm := vm.setPgdir mm.pgdir pd
        if pteAt pd addr = 0#32 then
          match a.page with
          | none => (vm, mm, false)
          | some page =>
            match page_insert vm mm.pgdir page addr perm true with
            | none => (vm, mm, false)
            | some vm => (vm, mm, true)
        else (vm, mm, false)

def ptep_u_read (pte : pte_t) : Bool := pte &&& PTE_U != 0#32

def ptep_u_write (pte : pte_t) : Bool := pte &&& PTE_U != 0#32 && pte &&& PTE_W != 0#32

/-- `handle_tlbmiss`, with the entry that the refill replaces. The flag is `ret == 0`. -/
def handle_tlbmiss (a : FaultPages) (vm : Vm) (mm : Mm) (badaddr : Word) (write in_kernel : Bool)
    (index : BitVec 4) : Vm × Mm × Bool :=
  match vm.pgdirs vm.current_pgdir (PDX badaddr) with
  | none => do_pgfault a vm mm (get_error_code write 0#32) badaddr
  | some table =>
    let pte := table (PTX badaddr)
    if pte = 0#32 then do_pgfault a vm mm (get_error_code write pte) badaddr
    else if in_kernel = false ∧
        (ptep_u_read pte = false ∨ (write = true ∧ ptep_u_write pte = false)) then
      (vm, mm, false)
    else
      ({ vm with tlb := vm.tlb.next ⟨true, index, (tlb_refill badaddr table (PTX badaddr)).entry⟩ },
        mm, true)

/-- The CPU takes a TLB miss at the address: `mmu` raises it on a miss and on an entry that is
not valid. -/
def tlbFault (tlb : Tlb) (held_index : BitVec 4) (va : Word) (write : Bool) : Bool :=
  let d := vir2phy held_index tlb va
  if write then is_tlbs d va true else is_tlbl_data d va false

/-! ## The kernel -/

/-- What matters here of `struct proc_struct`. While `load_icode` runs, `loading` is its local
variable `mm`. -/
structure Proc where
  mm : Option Mm
  cr3 : Nat
  loading : Option Mm
  zombie : Bool

/-- `alloc_proc` -/
def alloc_proc (boot_cr3 : Nat) : Proc := ⟨none, boot_cr3, none, false⟩

structure Kernel where
  vm : Vm
  boot_pgdir : Nat
  current : Nat
  procs : Nat → Option Proc

def Kernel.setProc (k : Kernel) (pid : Nat) (p : Option Proc) : Kernel :=
  { k with procs := fun i => if i = pid then p else k.procs i }

/-- The state that `kern_init` leaves: `boot_pgdir` is empty, the TLB was flushed and the only
process is the idle one. The TLB and the free pages start with anything. -/
def Kernel.boot (tlb : Tlb) (pgdirs : Nat → Pgdir) (boot_pgdir : Nat) : Kernel where
  vm := tlb_invalidate_all
    ⟨tlb, fun f => if f = boot_pgdir then .empty else pgdirs f, boot_pgdir,
      fun f => decide (f = boot_pgdir)⟩
  boot_pgdir := boot_pgdir
  current := 0
  procs := fun pid => if pid = 0 then some (alloc_proc boot_pgdir) else none

/-- What the kernel does next, with what the allocator and the hardware choose. -/
inductive Event
  /-- the running process touches user memory, from user mode or from the kernel -/
  | tlbmiss (badaddr : Word) (write in_kernel : Bool) (held_index index : BitVec 4)
      (a : FaultPages)
  /-- an edit of the running process's memory, at a page of one of its areas -/
  | page_insert (la : Word) (page : BitVec 20) (perm : Word) (table : Bool)
  | page_remove (la : Word)
  | unmap_range (start stop : Word)
  /-- `sys_fork` -/
  | do_fork (child pgdir : Nat) (a : CopyPages)
  /-- `kernel_thread`, which only kernel threads call -/
  | kernel_thread (child : Nat)
  /-- `do_execve` up to the call of `load_icode` -/
  | execve
  /-- the steps of `load_icode`, between which it waits for the disk -/
  | load_create (pgdir : Nat)
  | load_map (addr len vm_flags : Word) (memory : Bool)
  | load_insert (la : Word) (page : BitVec 20) (perm : Word) (table : Bool)
  | load_fail
  | load_finish
  | do_exit
  /-- `do_wait` finds a zombie -/
  | reap (pid : Nat)
  /-- a context switch -/
  | proc_run (pid : Nat)

/-- Some area holds the whole page at the address. -/
def InAreas (mm : Mm) (la : Word) : Prop :=
  pageAligned la ∧ ∃ vma ∈ mm.mmap_list, vma.vm_start ≤ la ∧ la < vma.vm_end

instance (mm : Mm) (la : Word) : Decidable (InAreas mm la) :=
  inferInstanceAs (Decidable (_ ∧ _))

/-- `do_exit` up to the call of `schedule`. -/
def Kernel.exit (k : Kernel) (p : Proc) : Option Kernel :=
  match p.mm with
  | none => some (k.setProc k.current (some { p with zombie := true }))
  | some mm =>
    (leave_mm k.vm k.boot_pgdir mm).map fun vm =>
      { k with vm := vm }.setProc k.current (some { p with mm := none, zombie := true })

/-- The step of a process whose memory is `mm`. -/
def Kernel.userStep (k : Kernel) (p : Proc) (mm : Mm) : Event → Option Kernel
  | .tlbmiss badaddr write in_kernel held_index index a =>
    if tlbFault k.vm.tlb held_index badaddr write then
      let (vm, mm, ok) := handle_tlbmiss a k.vm mm badaddr write in_kernel index
      let p := { p with mm := some mm }
      let k := { k with vm := vm }
      if ok then some (k.setProc k.current (some p))
      else if in_kernel then none
      else k.exit p
    else none
  | .page_insert la page perm table =>
    if InAreas mm la then
      (page_insert k.vm mm.pgdir page la perm table).map fun vm => { k with vm := vm }
    else none
  | .page_remove la => some { k with vm := page_remove k.vm mm.pgdir la }
  | .unmap_range start stop =>
    (unmap_range k.vm mm.pgdir start stop).map fun vm => { k with vm := vm }
  | .do_fork child pgdir a =>
    if k.procs child = none ∧ k.vm.taken pgdir = false then
      match dup_mmap a (setup_pgdir k.vm k.boot_pgdir pgdir) (mm_create pgdir) mm with
      | none => none
      | some (vm, new, true) =>
        some ({ k with vm := vm }.setProc child
          (some { alloc_proc k.boot_pgdir with
            mm := some { new with mm_count := new.mm_count + 1 }, cr3 := new.pgdir }))
      | some (vm, new, false) =>
        (exit_mmap vm new).map fun vm => { k with vm := put_pgdir vm new }
    else none
  | .execve =>
    (leave_mm k.vm k.boot_pgdir mm).map fun vm =>
      { k with vm := vm }.setProc k.current (some { p with mm := none })
  | .do_exit => k.exit p
  | _ => none

/-- The step of `load_icode` with the new memory `mm`. -/
def Kernel.loadStep (k : Kernel) (p : Proc) (mm : Mm) : Event → Option Kernel
  | .load_map addr len vm_flags memory =>
    (mm_map mm addr len vm_flags memory).map fun (mm, _) =>
      k.setProc k.current (some { p with loading := some mm })
  | .load_insert la page perm table =>
    if InAreas mm la then
      (page_insert k.vm mm.pgdir page la perm table).map fun vm => { k with vm := vm }
    else none
  | .load_fail =>
    (exit_mmap k.vm mm).map fun vm =>
      { k with vm := put_pgdir vm mm }.setProc k.current (some { p with loading := none })
  | .load_finish =>
    some ({ k with vm := lcr3 k.vm mm.pgdir }.setProc k.current
      (some { p with
        mm := some { mm with mm_count := mm.mm_count + 1 }, cr3 := mm.pgdir, loading := none }))
  | _ => none

/-- The step of a process without memory: a kernel thread, or one between its old and its new
program. -/
def Kernel.threadStep (k : Kernel) (p : Proc) : Event → Option Kernel
  | .kernel_thread child =>
    if k.procs child = none then some (k.setProc child (some (alloc_proc k.boot_pgdir))) else none
  | .execve => some k
  | .load_create pgdir =>
    if k.vm.taken pgdir = false then
      some ({ k with vm := setup_pgdir k.vm k.boot_pgdir pgdir }.setProc k.current
        (some { p with loading := some (mm_create pgdir) }))
    else none
  | .do_exit => k.exit p
  | _ => none

/-- `proc_run` -/
def Kernel.proc_run (k : Kernel) (pid : Nat) (next : Proc) : Kernel :=
  if pid = k.current then k
  else { k with current := pid, vm := tlb_invalidate_all (lcr3 k.vm next.cr3) }

/-- One step. With an event that the code does not allow, or one that ends in a panic, there
is none. -/
def Kernel.step (k : Kernel) (e : Event) : Option Kernel :=
  match k.procs k.current with
  | none => none
  | some p =>
    match e with
    | .proc_run pid => (k.procs pid).map (k.proc_run pid)
    | .reap pid =>
      match k.procs pid with
      | some q => if q.zombie = true ∧ pid ≠ k.current then some (k.setProc pid none) else none
      | none => none
    | e =>
      if p.zombie then none
      else
        match p.loading, p.mm with
        | some mm, _ => k.loadStep p mm e
        | none, some mm => k.userStep p mm e
        | none, none => k.threadStep p e

end nehcpu.kernel
