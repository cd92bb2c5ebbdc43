-- The fork of `proc.c`: `do_fork` with all that it takes for the child, one thing after the other,
-- and the ways back. No other process runs in between, so nobody waits for a lock.
import Nehcpu.Kernel.FileTable
import Nehcpu.Kernel.FrameCopy
import Nehcpu.Kernel.LoadIcode
import Nehcpu.Kernel.Pids
import Nehcpu.Kernel.Sched

/-! ## `fs_destroy` in one go -/

namespace nehcpu.kernel.filetable

/-- The call that the process is in goes on: its loop, or behind the operation of an inode. -/
def resume (s : Sys) (pid : Pid) : Except Failed Sys :=
  match s.calls.find? fun c => pid ∈ c.pids with
  | some (.destroy t i owner) => destroyStep (s.drop (.destroy t i owner)) t i owner
  | some (.closing t i node next) =>
    closingDone (s.drop (.closing t i node next)) t i node next
  | some (.closed t i next) => closedDone (s.drop (.closed t i next)) t i next
  | _ => .ok s

/-- Its turns one after the other, where no inode makes it wait. -/
def finish (pid : Pid) : Nat → Sys → Except Failed Sys
  | 0, s => .ok s
  | turns + 1, s => resume s pid >>= finish pid turns

end nehcpu.kernel.filetable

namespace nehcpu.kernel.fork

open cpu frames Function

/-! ## Runs of pages -/

/-- The page is one of the `n` pages from `base` on. -/
def InRun (base : Page) (n : Nat) (page : Page) : Prop := (page - base).toNat < n

instance (base : Page) (n : Nat) (page : Page) : Decidable (InRun base n page) :=
  inferInstanceAs (Decidable (_ < _))

/-- An allocator that gives out runs of pages too. -/
structure PageAllocator extends Allocator where
  pickRun : Nat → (Page → Bool) → Nat → Option Page
  pickRun_free : ∀ {n free tick base}, pickRun n free tick = some base →
    ∀ page, InRun base n page → free page = true

def alloc_pages (A : PageAllocator) (n : Nat) (s : Frames) : Option Page × Frames :=
  match A.pickRun n s.free s.tick with
  | none => (none, { s with tick := s.tick + 1 })
  | some base =>
    (some base, { s with
      free := fun page => if InRun base n page then false else s.free page
      tick := s.tick + 1 })

def free_pages (s : Frames) (base : Page) (n : Nat) : Frames :=
  { s with
    free := fun page => if InRun base n page then true else s.free page
    ref := fun page => if InRun base n page then 0 else s.ref page }

abbrev KERNBASE : Word := 0x80000000#32

def page2kva (page : Page) : Word := page2pa page + KERNBASE

def kva2page (kva : Word) : Page := (kva - KERNBASE).extractLsb' 12 20

/-! ## The data -/

/-- The address of a structure. -/
abbrev Place := Nat

/-- The fields of `struct proc_struct` that the fork uses, with the frame that `tf` points to.
`sf_sp` is that of `context`, whose `sf_ra` is `forkret`, and `cr3` is the directory, none for
that of the boot. -/
structure proc_struct where
  state : sched.ProcState
  pid : Int
  kstack : Word
  parent : Option Place
  mm : Option Place
  cr3 : Option Nat
  sf_sp : Word
  tf : Word
  frame : Option trap.Trapframe
  wait_state : Word
  cptr : Option Place
  yptr : Option Place
  optr : Option Place

/-- `heap` is the number of structures that `kmalloc` has given out. The tables of files are those
of `fs`, with the places of the processes as its pids. -/
structure Kern where
  pages : Frames
  heap : Nat
  fs : filetable.Sys
  mms : Place → Option Mm
  procs : Place → Option proc_struct
  current : Place
  proc_list : List Place
  hash_list : Nat → List Place
  nr_process : Nat
  statics : pids.Statics
  run_list : List Place

/-- Where `kmalloc` puts what it gives out. -/
structure Places where
  proc : Place
  fs : Place
  mm : Place

abbrev CLONE_VM : Word := 0x100#32
abbrev CLONE_FS : Word := 0x800#32
abbrev KSTACKPAGE : Nat := 2
abbrev KSTACKSIZE : Word := 8192#32

abbrev E_NO_MEM : Int := 4
abbrev E_NO_FREE_PROC : Int := 5

def Kern.setProc (k : Kern) (place : Place) (f : proc_struct → proc_struct) : Kern :=
  { k with procs := update k.procs place ((k.procs place).map f) }

/-- `kmalloc` of one structure. The pages of its slabs are not among the frames: a slab goes with
its last structure. -/
def kmalloc (A : PageAllocator) (k : Kern) : Bool × Kern :=
  let k' := { k with pages := { k.pages with tick := k.pages.tick + 1 } }
  if A.memory k.pages.tick then (true, { k' with heap := k.heap + 1 }) else (false, k')

/-! ## The process and its stack -/

def newProc : proc_struct where
  state := .PROC_UNINIT
  pid := -1
  kstack := 0#32
  parent := none
  mm := none
  cr3 := none
  sf_sp := 0#32
  tf := 0#32
  frame := none
  wait_state := 0#32
  cptr := none
  yptr := none
  optr := none

def alloc_proc (A : PageAllocator) (place : Place) (k : Kern) : Bool × Kern :=
  match kmalloc A k with
  | (false, k) => (false, k)
  | (true, k) => (true, { k with procs := update k.procs place (some newProc) })

/-- `kfree` of the process -/
def free_proc (place : Place) (k : Kern) : Kern :=
  { k with procs := update k.procs place none, heap := k.heap - 1 }

/-- The flag is `ret == 0`. -/
def setup_kstack (A : PageAllocator) (child : Place) (k : Kern) : Bool × Kern :=
  match alloc_pages A KSTACKPAGE k.pages with
  | (none, pages) => (false, { k with pages })
  | (some base, pages) =>
    (true, { k with pages }.setProc child fun p => { p with kstack := page2kva base })

def put_kstack (child : Place) (k : Kern) : Kern :=
  match k.procs child with
  | none => k
  | some p => { k with pages := free_pages k.pages (kva2page p.kstack) KSTACKPAGE }

/-! ## The files -/

/-- `copy_fs`, with what it returns. -/
def copy_fs (A : PageAllocator) (place : Place) (clone_flags : Word) (child : Place) (k : Kern) :
    Option (Int × Kern) :=
  let clone := clone_flags &&& CLONE_FS != 0#32
  let (memory, k) := if clone then (false, k) else kmalloc A k
  let ret := if clone ∨ memory then 0 else -E_NO_MEM
  match filetable.copy_fs k.fs k.current child clone (if memory then some place else none) with
  | .error _ => none
  | .ok fs => some (ret, { k with fs })

/-- The turns of `fs_destroy` at most: three for a file, and the last one. -/
abbrev destroyTurns : Nat := 3 * filetable.FS_STRUCT_NENTRY + 1

/-- `put_fs`, where a table that goes is a structure less. -/
def put_fs (child : Place) (k : Kern) : Option Kern :=
  let put := do
    let fs ← (filetable.Event.forkDone k.current child false).step k.fs
    filetable.finish k.current destroyTurns fs
  match put with
  | .error _ => none
  | .ok fs => some { k with fs, heap := k.heap - (k.fs.tabs.card - fs.tabs.card) }

/-! ## The memory -/

/-- The page of the directory has the number of the directory. -/
def setup_pgdir (A : PageAllocator) (k : Kern) : Option Page × Kern :=
  match alloc_page A.toAllocator k.pages with
  | (none, pages) => (none, { k with pages })
  | (some page, pages) => (some page, { k with pages := frames.setup_pgdir pages page.toNat })

def put_pgdir (mm : Mm) (k : Kern) : Kern :=
  { k with pages := free_page (frames.put_pgdir k.pages mm) (BitVec.ofNat 20 mm.pgdir) }

/-- The memory is gone with all its areas. -/
def mm_destroy (mm : Mm) (k : Kern) : Option Kern :=
  (frames.mm_destroy mm k.heap).map fun heap => { k with heap }

/-- The end of `copy_mm`. -/
def good_mm (place : Place) (mm : Mm) (child : Place) (k : Kern) : Kern :=
  let mms := update k.mms place (some { mm with mm_count := mm.mm_count + 1 })
  { k with mms }.setProc child fun p => { p with mm := some place, cr3 := some mm.pgdir }

/-- `copy_mm`, with what it returns. Each area of the new memory is a structure more. -/
def copy_mm (A : PageAllocator) (place : Place) (clone_flags : Word) (child : Place) (k : Kern) :
    Option (Int × Kern) :=
  match (k.procs k.current).bind proc_struct.mm with
  | none => some (0, k)
  | some old =>
    match k.mms old with
    | none => none
    | some oldmm =>
      if clone_flags &&& CLONE_VM != 0#32 then some (0, good_mm old oldmm child k)
      else
        match kmalloc A k with
        | (false, k) => some (-E_NO_MEM, k)
        | (true, k) =>
          match setup_pgdir A k with
          | (none, k) => (mm_destroy (mm_create 0) k).map fun k => (-E_NO_MEM, k)
          | (some page, k) =>
            match frames.dup_mmap A.toAllocator k.pages (mm_create page.toNat) oldmm with
            | none => none
            | some (pages, mm, ok) =>
              let k := { k with pages, heap := k.heap + mm.mmap_list.length }
              if ok then some (0, good_mm place mm child k)
              else
                match frames.exit_mmap A.toAllocator k.pages mm with
                | none => none
                | some pages =>
                  (mm_destroy mm (put_pgdir mm { k with pages })).map fun k => (-E_NO_MEM, k)

/-! ## The child -/

abbrev TRAPFRAME_SIZE : Word := 148#32

def copy_thread (child : Place) (esp : Word) (tf : trap.Trapframe) (k : Kern) : Kern :=
  k.setProc child fun p =>
    let top := p.kstack + KSTACKSIZE - TRAPFRAME_SIZE
    let sp := if esp = 0#32 then top - 32#32 else esp
    { p with
      tf := top
      frame := some { tf with
        tf_regs := update (update tf.tf_regs trap.MIPS_REG_V0 0#32) trap.MIPS_REG_SP sp }
      sf_sp := top - 32#32 }

/-- The pids of the list. -/
def Kern.pids (k : Kern) : List Nat :=
  k.proc_list.map fun place => ((k.procs place).elim 0 proc_struct.pid).toNat

def get_pid (k : Kern) : Option (Nat × Kern) :=
  (pids.get_pid k.pids pids.MAX_PID k.statics).map fun st =>
    (st.last_pid, { k with statics := st })

def hash32 (val bits : Nat) : Nat := (BitVec.ofNat 32 val * 0x9E370001#32).toNat / 2 ^ (32 - bits)

def pid_hashfn (pid : Nat) : Nat := hash32 pid 10

def hash_proc (child : Place) (pid : Nat) (k : Kern) : Kern :=
  let i := pid_hashfn pid
  { k with hash_list := update k.hash_list i (child :: k.hash_list i) }

def set_links (child : Place) (k : Kern) : Kern :=
  let parent := (k.procs child).bind proc_struct.parent
  let older := (parent.bind k.procs).bind proc_struct.cptr
  let k := { k with proc_list := child :: k.proc_list, nr_process := k.nr_process + 1 }
  let k := k.setProc child fun p => { p with yptr := none, optr := older }
  let k := older.elim k fun place => k.setProc place fun p => { p with yptr := some child }
  parent.elim k fun place => k.setProc place fun p => { p with cptr := some child }

/-- `wakeup_proc` of a process that is not `idleproc`. -/
def wakeup_proc (child : Place) (k : Kern) : Option Kern :=
  match k.procs child with
  | none => none
  | some p =>
    if p.state = .PROC_ZOMBIE then none
    else if p.state ≠ .PROC_RUNNABLE then
      let k := k.setProc child fun p => { p with state := .PROC_RUNNABLE, wait_state := 0#32 }
      if child ≠ k.current then some { k with run_list := k.run_list ++ [child] } else some k
    else some k

/-- The end of `do_fork`: the child gets its pid and is woken up. -/
def startChild (child : Place) (stack : Word) (tf : trap.Trapframe) (k : Kern) :
    Option (Int × Kern) :=
  match (filetable.Event.forkDone k.current child true).step k.fs with
  | .error _ => none
  | .ok fs => do
    let (pid, k) ← get_pid (copy_thread child stack tf { k with fs })
    let k := k.setProc child fun p => { p with pid := pid }
    let k ← wakeup_proc child (set_links child (hash_proc child pid k))
    some (pid, k)

/-! ## `do_fork` -/

def bad_fork_cleanup_proc (child : Place) (k : Kern) : Int × Kern :=
  (-E_NO_MEM, free_proc child k)

def bad_fork_cleanup_kstack (child : Place) (k : Kern) : Int × Kern :=
  bad_fork_cleanup_proc child (put_kstack child k)

def bad_fork_cleanup_fs (child : Place) (k : Kern) : Option (Int × Kern) :=
  (put_fs child k).map (bad_fork_cleanup_kstack child)

/-- What it returns and the kernel afterwards, or nothing where an assertion fails. -/
def do_fork (A : PageAllocator) (new : Places) (clone_flags stack : Word) (tf : trap.Trapframe)
    (k : Kern) : Option (Int × Kern) :=
  if k.nr_process ≥ pids.MAX_PROCESS then some (-E_NO_FREE_PROC, k)
  else
    match alloc_proc A new.proc k with
    | (false, k) => some (-E_NO_MEM, k)
    | (true, k) =>
      let k := k.setProc new.proc fun p => { p with parent := some k.current }
      match setup_kstack A new.proc k with
      | (false, k) => some (bad_fork_cleanup_proc new.proc k)
      | (true, k) =>
        match copy_fs A new.fs clone_flags new.proc k with
        | none => none
        | some (ret, k) =>
          if ret ≠ 0 then some (bad_fork_cleanup_kstack new.proc k)
          else
            match copy_mm A new.mm clone_flags new.proc k with
            | none => none
            | some (ret, k) =>
              if ret ≠ 0 then bad_fork_cleanup_fs new.proc k
              else startChild new.proc stack tf k

end nehcpu.kernel.fork
