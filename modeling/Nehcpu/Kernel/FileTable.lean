-- The tables of open files: `file_open` to `file_dup`, `vfs_open` and `vfs_close`, and what fork, exec and
-- exit do with a table, cut into pieces where a process may wait for a lock or for the disk.
import Mathlib.Data.Finset.Basic
import Mathlib.Data.List.FinRange
import Mathlib.Logic.Function.Basic
import Nehcpu.Cpu.Defines
import Nehcpu.Lib.Calls
import Nehcpu.Lib.Fallible

namespace nehcpu.kernel.filetable

open Function
open cpu hiding Except

/-! ## The data -/

abbrev Node := Nat

abbrev Pid := Nat

/-- The place of a `struct fs_struct`. -/
abbrev Tab := Nat

/-- What is left of a page behind a `struct fs_struct`, in pieces of the size of a `struct file`. -/
abbrev FS_STRUCT_NENTRY : Nat := (4096 - 24) / 28

abbrev Fd := Fin FS_STRUCT_NENTRY

inductive Status
  | FD_NONE
  | FD_INIT
  | FD_OPENED
  | FD_CLOSED
deriving DecidableEq, Repr

structure file where
  status : Status
  readable : Bool
  writable : Bool
  fd : Int
  pos : Word
  node : Option Node
  open_count : Nat

structure fs_struct where
  pwd : Option Node
  filemap : Fd → file
  fs_count : Nat

abbrev NO_FD : Int := -0x9527

abbrev O_WRONLY : Word := 1#32
abbrev O_RDWR : Word := 2#32
abbrev O_CREAT : Word := 4#32
abbrev O_EXCL : Word := 8#32
abbrev O_TRUNC : Word := 16#32
abbrev O_APPEND : Word := 32#32
abbrev O_ACCMODE : Word := 3#32

abbrev E_INVAL : Int := 3
abbrev E_NO_MEM : Int := 4
abbrev E_BUSY : Int := 15
abbrev E_NOENT : Int := 16
abbrev E_MAX_OPEN : Int := 22
abbrev E_EXISTS : Int := 23

def flag (open_flags o : Word) : Bool := open_flags &&& o ≠ 0#32

/-- `readable` and `writable` of `file_open`, and nothing for a mode that does not exist. -/
def accmode (open_flags : Word) : Option (Bool × Bool) :=
  if open_flags &&& O_ACCMODE = 0#32 then some (true, false)
  else if open_flags &&& O_ACCMODE = O_WRONLY then some (false, true)
  else if open_flags &&& O_ACCMODE = O_RDWR then some (true, true)
  else none

/-- The functions that use an open file and may wait in an operation of its inode. -/
inductive Op
  | file_read
  | file_write
  | file_seek (pos : Word) (whence : Int)
  | file_fstat
  | file_fsync
  | file_getdirentry
deriving DecidableEq, Repr

/-- Where `filemap_close` or `filemap_free` returns to: to the call of a process with its value, or
into the loop of `fs_closeall` or `fs_destroy`. -/
inductive Next
  | ret (pid : Pid) (value : Int)
  | closeall (pid : Pid)
  | destroy (owner : Option Pid)
deriving DecidableEq, Repr

/-- A call that waits, or that may be made to wait. -/
inductive Call
  /-- `vfs_open` in `vfs_lookup`, and behind `vop_open_inc`, in `vop_truncate` if it comes to that -/
  | lookup (pid : Pid) (t : Tab) (i : Fd) (open_flags : Word)
  | truncate (pid : Pid) (t : Tab) (i : Fd) (open_flags : Word) (node : Node)
  /-- a failed open in `vop_close`, and in the `vop_reclaim` of its `vop_ref_dec` -/
  | failing (pid : Pid) (t : Tab) (i : Fd) (node : Node) (value : Int)
  | failed (pid : Pid) (t : Tab) (i : Fd) (value : Int)
  | io (pid : Pid) (t : Tab) (i : Fd) (op : Op)
  /-- `vfs_close` of a closed file in `vop_close`, and in the `vop_reclaim` of its `vop_ref_dec` -/
  | closing (t : Tab) (i : Fd) (node : Node) (next : Next)
  | closed (t : Tab) (i : Fd) (next : Next)
  /-- the loops, at the file that is next -/
  | closeall (pid : Pid) (t : Tab) (i : Nat)
  | destroy (t : Tab) (i : Nat) (owner : Option Pid)
  /-- `do_fork` behind `copy_fs` -/
  | forking (pid child : Pid)
deriving DecidableEq, Repr

/-- `procs` are the processes that have not given their table back, `others` counts the references
that no table holds, and `vop_closes` counts the calls of `vop_close`; all three are for the proofs
only. `result` is what the last call of a process returned. -/
structure Sys where
  tabs : Finset Tab
  table : Tab → fs_struct
  procs : Finset Pid
  fs_struct : Pid → Option Tab
  ref_count : Node → Nat
  open_count : Node → Nat
  others : Node → Nat
  vop_closes : Node → Nat
  calls : List Call
  result : Pid → Int

/-- `filemap_init` -/
def filemap_init (i : Fd) : file where
  status := .FD_NONE
  readable := false
  writable := false
  fd := i
  pos := 0#32
  node := none
  open_count := 0

def fs_create : fs_struct where
  pwd := none
  filemap := filemap_init
  fs_count := 0

/-- The first process has an empty table, and no inode is in use. -/
def boot (idleproc : Pid) (t : Tab) : Sys where
  tabs := {t}
  table := fun _ => { fs_create with fs_count := 1 }
  procs := {idleproc}
  fs_struct := fun pid => if pid = idleproc then some t else none
  ref_count := fun _ => 0
  open_count := fun _ => 0
  others := fun _ => 0
  vop_closes := fun _ => 0
  calls := []
  result := fun _ => 0

/-- What stops the kernel: the use of a table that is gone or of an inode that is not there, an
assertion, named by the function that makes it, or the call of an operation that no inode has. -/
inductive Failed
  | gone
  | node
  | copy_fs
  | get_filemap
  | filemap_alloc
  | filemap_free
  | filemap_acquire
  | filemap_release
  | filemap_open
  | filemap_close
  | filemap_dup
  | fs_destroy
  | fs_closeall
  | dup_fs
  | inode_ref_dec
  | inode_open_dec
  | inode_kill
  | vop_create
deriving DecidableEq, Repr

/-! ## The parts of the state -/

def Sys.fs (s : Sys) (t : Tab) : Except Failed filetable.fs_struct :=
  if t ∈ s.tabs then .ok (s.table t) else .error .gone

def Sys.slot (s : Sys) (t : Tab) (i : Fd) : filetable.file := (s.table t).filemap i

def Sys.file (s : Sys) (t : Tab) (i : Fd) : Except Failed filetable.file := do
  let fs ← s.fs t
  pure (fs.filemap i)

def Sys.setTable (s : Sys) (t : Tab) (fs : filetable.fs_struct) : Sys :=
  { s with table := update s.table t fs }

def Sys.setFile (s : Sys) (t : Tab) (i : Fd) (f : filetable.file) : Sys :=
  s.setTable t { s.table t with filemap := update (s.table t).filemap i f }

def Sys.push (s : Sys) (c : Call) : Sys := { s with calls := c :: s.calls }

def Sys.drop (s : Sys) (c : Call) : Sys := { s with calls := calls.goOn s.calls c [] }

def Sys.ret (s : Sys) (pid : Pid) (value : Int) : Sys :=
  { s with result := update s.result pid value }

/-! ## The counts of an inode -/

def inode_ref_inc (s : Sys) (node : Node) : Sys :=
  { s with ref_count := update s.ref_count node (s.ref_count node + 1) }

def inode_open_inc (s : Sys) (node : Node) : Sys :=
  { s with open_count := update s.open_count node (s.open_count node + 1) }

/-- `inode_ref_dec` up to `vop_reclaim`, in which the caller may wait. -/
def inode_ref_dec (s : Sys) (node : Node) : Except Failed Sys :=
  if s.ref_count node = 0 then .error .inode_ref_dec
  else .ok { s with ref_count := update s.ref_count node (s.ref_count node - 1) }

/-- `inode_open_dec` up to the end of `vop_close`, in which the caller may wait. -/
def inode_open_dec (s : Sys) (node : Node) : Except Failed Sys :=
  if s.open_count node = 0 then .error .inode_open_dec
  else
    let s := { s with open_count := update s.open_count node (s.open_count node - 1) }
    .ok (if s.open_count node = 0 then
      { s with vop_closes := update s.vop_closes node (s.vop_closes node + 1) } else s)

/-! ## The files of a table -/

def testfd (fd : Int) : Option Fd :=
  if h : fd.toNat < FS_STRUCT_NENTRY then if 0 ≤ fd then some ⟨fd.toNat, h⟩ else none else none

/-- The table of the running process. -/
def get_filemap (s : Sys) (pid : Pid) : Except Failed Tab :=
  match s.fs_struct pid with
  | none => .error .get_filemap
  | some t => do
    let fs ← s.fs t
    if fs.fs_count = 0 then .error .get_filemap else pure t

/-- The part of `filemap_alloc` up to `found`: the first free file, or the one that is asked for. -/
def freeFile (fs : fs_struct) (fd : Int) : Int ⊕ Fd :=
  if fd = NO_FD then
    match (List.finRange FS_STRUCT_NENTRY).find? fun i => (fs.filemap i).status = .FD_NONE with
    | some i => .inr i
    | none => .inl (-E_MAX_OPEN)
  else
    match testfd fd with
    | some i => if (fs.filemap i).status = .FD_NONE then .inr i else .inl (-E_BUSY)
    | none => .inl (-E_INVAL)

def filemap_alloc (s : Sys) (pid : Pid) (fd : Int) : Except Failed (Int ⊕ Tab × Fd × Sys) := do
  let t ← get_filemap s pid
  let fs ← s.fs t
  match freeFile fs fd with
  | .inl ret => pure (.inl ret)
  | .inr i =>
    let f := fs.filemap i
    if f.open_count ≠ 0 then .error .filemap_alloc
    else pure (.inr (t, i, s.setFile t i { f with status := .FD_INIT, node := none }))

/-- The way back from the file `i`; `fs_destroy` has an assertion there. -/
def goNext (s : Sys) (t : Tab) (i : Fd) : Next → Except Failed Sys
  | .ret pid value => .ok (s.ret pid value)
  | .closeall pid => .ok (s.push (.closeall pid t (i + 1)))
  | .destroy owner => do
    let f ← s.file t i
    if f.status ≠ .FD_NONE then .error .fs_destroy else pure (s.push (.destroy t (i + 1) owner))

def filemap_free (s : Sys) (t : Tab) (i : Fd) (next : Next) : Except Failed Sys := do
  let f ← s.file t i
  if ¬ (f.status = .FD_INIT ∨ f.status = .FD_CLOSED) ∨ f.open_count ≠ 0 then .error .filemap_free
  else if f.status = .FD_CLOSED then
    match f.node with
    | none => .error .node
    | some node => do
      let s ← inode_open_dec s node
      pure (s.push (.closing t i node next))
  else goNext (s.setFile t i { f with status := .FD_NONE }) t i next

def filemap_acquire (s : Sys) (t : Tab) (i : Fd) : Except Failed Sys := do
  let f ← s.file t i
  if f.status ≠ .FD_OPENED then .error .filemap_acquire
  else pure (s.setFile t i { f with open_count := f.open_count + 1 })

def filemap_release (s : Sys) (t : Tab) (i : Fd) (next : Next) : Except Failed Sys := do
  let f ← s.file t i
  if ¬ (f.status = .FD_OPENED ∨ f.status = .FD_CLOSED) ∨ f.open_count = 0 then
    .error .filemap_release
  else
    let s := s.setFile t i { f with open_count := f.open_count - 1 }
    if f.open_count - 1 = 0 then filemap_free s t i next else goNext s t i next

def filemap_open (s : Sys) (t : Tab) (i : Fd) : Except Failed Sys := do
  let f ← s.file t i
  if f.status ≠ .FD_INIT ∨ f.node = none then .error .filemap_open
  else pure (s.setFile t i { f with status := .FD_OPENED, open_count := f.open_count + 1 })

def filemap_close (s : Sys) (t : Tab) (i : Fd) (next : Next) : Except Failed Sys := do
  let f ← s.file t i
  if f.status ≠ .FD_OPENED ∨ f.open_count = 0 then .error .filemap_close
  else
    let s := s.setFile t i { f with status := .FD_CLOSED, open_count := f.open_count - 1 }
    if f.open_count - 1 = 0 then filemap_free s t i next else goNext s t i next

/-- `filemap_dup` to the file `i` of `t` from the file `j` of `u`. -/
def filemap_dup (s : Sys) (t : Tab) (i : Fd) (u : Tab) (j : Fd) : Except Failed Sys := do
  let dst ← s.file t i
  let f ← s.file u j
  if dst.status ≠ .FD_INIT ∨ f.status ≠ .FD_OPENED then .error .filemap_dup
  else
    match f.node with
    | none => .error .node
    | some node =>
      let s := inode_open_inc (inode_ref_inc s node) node
      filemap_open (s.setFile t i
        { dst with pos := f.pos, readable := f.readable, writable := f.writable, node := some node })
        t i

def fd2file (s : Sys) (pid : Pid) (fd : Int) : Except Failed (Option (Tab × Fd)) :=
  match testfd fd with
  | none => .ok none
  | some i => do
    let t ← get_filemap s pid
    let f ← s.file t i
    pure (if f.status = .FD_OPENED ∧ f.fd = fd then some (t, i) else none)

/-! ## `file_open` -/

/-- Up to the lookup in `vfs_open`. -/
def file_open (s : Sys) (pid : Pid) (open_flags : Word) : Except Failed Sys :=
  match accmode open_flags with
  | none => .ok (s.ret pid (-E_INVAL))
  | some (_, writable) => do
    match ← filemap_alloc s pid NO_FD with
    | .inl ret => pure (s.ret pid ret)
    | .inr (t, i, s) =>
      if flag open_flags O_TRUNC ∧ ¬ writable then filemap_free s t i (.ret pid (-E_INVAL))
      else pure (s.push (.lookup pid t i open_flags))

/-- The part of `file_open` behind `vfs_open`. `vop_fstat` returns `fstat`, with the size `st_size`. -/
def openDone (s : Sys) (pid : Pid) (t : Tab) (i : Fd) (open_flags : Word) (node : Node) (fstat : Int)
    (st_size : Word) : Except Failed Sys := do
  let f ← s.file t i
  if flag open_flags O_APPEND ∧ fstat ≠ 0 then
    let s ← inode_open_dec (s.setFile t i { f with pos := 0#32 }) node
    pure (s.push (.failing pid t i node fstat))
  else
    let (readable, writable) := (accmode open_flags).getD (false, false)
    let pos := if flag open_flags O_APPEND then st_size else 0#32
    let s ← filemap_open (s.setFile t i { f with pos, node := some node, readable, writable }) t i
    pure (s.ret pid f.fd)

/-- What the lookup in `vfs_open` comes to: an error, no such file, with what `vfs_lookup_parent`
returns, or an inode, with what `vop_open` returns. -/
inductive Lookup
  | failed (ret : Int)
  | noent (parent : Int)
  | found (node : Node) (ret : Int)
deriving DecidableEq, Repr

/-- From the end of the lookup to `vop_open_inc`. A file that exists already keeps the reference of its
lookup for ever if it should not exist. -/
def lookedUp (s : Sys) (pid : Pid) (t : Tab) (i : Fd) (open_flags : Word) (answer : Lookup) :
    Except Failed Sys :=
  let create := flag open_flags O_CREAT
  match answer with
  | .failed ret => filemap_free s t i (.ret pid ret)
  | .noent parent =>
    if create then
      if parent ≠ 0 then filemap_free s t i (.ret pid parent) else .error .vop_create
    else filemap_free s t i (.ret pid (-E_NOENT))
  | .found node ret =>
    let s := inode_ref_inc s node
    if flag open_flags O_EXCL ∧ create then
      filemap_free { s with others := update s.others node (s.others node + 1) } t i
        (.ret pid (-E_EXISTS))
    else if ret ≠ 0 then do
      let s ← inode_ref_dec s node
      pure (s.push (.failed pid t i ret))
    else .ok ((inode_open_inc s node).push (.truncate pid t i open_flags node))

/-- From the end of `vop_truncate`, which returns `ret` if the flags ask for it. -/
def truncated (s : Sys) (pid : Pid) (t : Tab) (i : Fd) (open_flags : Word) (node : Node) (ret : Int)
    (fstat : Int) (st_size : Word) : Except Failed Sys :=
  if (flag open_flags O_TRUNC ∨ flag open_flags O_CREAT) ∧ ret ≠ 0 then do
    let s ← inode_open_dec s node
    pure (s.push (.failing pid t i node ret))
  else openDone s pid t i open_flags node fstat st_size

/-- From the end of `vop_close` in a failed open. -/
def failingDone (s : Sys) (pid : Pid) (t : Tab) (i : Fd) (node : Node) (value : Int) :
    Except Failed Sys := do
  let s ← inode_ref_dec s node
  pure (s.push (.failed pid t i value))

/-! ## The other calls on a file -/

/-- What the operations of the inode answer: `vop_fstat`, the size it tells, what the last operation
returns, and how much it copied. -/
structure Answer where
  fstat : Int
  st_size : Word
  ret : Int
  copied : Word
deriving DecidableEq, Repr

/-- The part of `file_seek` at `vop_tryseek`. -/
def tryseek (f : file) (pos : Word) (answer : Answer) : file × Int :=
  if answer.ret = 0 then ({ f with pos }, 0) else (f, answer.ret)

/-- What a call does to its file between the operation and `filemap_release`, and what it returns. -/
def Op.finish (op : Op) (f : file) (answer : Answer) : file × Int :=
  match op with
  | .file_read | .file_write =>
    (if f.status = .FD_OPENED then { f with pos := f.pos + answer.copied } else f, answer.ret)
  | .file_seek pos whence =>
    if whence = 0 then tryseek f pos answer
    else if whence = 1 then tryseek f (pos + f.pos) answer
    else if whence = 2 then
      if answer.fstat = 0 then tryseek f (pos + answer.st_size) answer else (f, answer.fstat)
    else (f, -E_INVAL)
  | .file_fstat | .file_fsync | .file_getdirentry => (f, answer.ret)

/-- The call may be made on the file. -/
def Op.permitted (op : Op) (f : file) : Bool :=
  match op with
  | .file_read => f.readable
  | .file_write => f.writable
  | _ => true

/-- Up to the operation of the inode. -/
def file_io (s : Sys) (pid : Pid) (fd : Int) (op : Op) : Except Failed Sys := do
  match ← fd2file s pid fd with
  | none => pure (s.ret pid (-E_INVAL))
  | some (t, i) => do
    let f ← s.file t i
    if op.permitted f then
      let s ← filemap_acquire s t i
      pure (s.push (.io pid t i op))
    else pure (s.ret pid (-E_INVAL))

/-- From the end of the operation. -/
def ioDone (s : Sys) (pid : Pid) (t : Tab) (i : Fd) (op : Op) (answer : Answer) :
    Except Failed Sys := do
  let f ← s.file t i
  let (f, ret) := op.finish f answer
  filemap_release (s.setFile t i f) t i (.ret pid ret)

def file_close (s : Sys) (pid : Pid) (fd : Int) : Except Failed Sys := do
  match ← fd2file s pid fd with
  | none => pure (s.ret pid (-E_INVAL))
  | some (t, i) => filemap_close s t i (.ret pid 0)

/-- From the end of `vop_close` in `vfs_close`. -/
def closingDone (s : Sys) (t : Tab) (i : Fd) (node : Node) (next : Next) : Except Failed Sys := do
  let s ← inode_ref_dec s node
  pure (s.push (.closed t i next))

/-- The last line of `filemap_free`, behind `vfs_close`. -/
def closedDone (s : Sys) (t : Tab) (i : Fd) (next : Next) : Except Failed Sys := do
  let f ← s.file t i
  goNext (s.setFile t i { f with status := .FD_NONE }) t i next

def file_dup (s : Sys) (pid : Pid) (fd1 fd2 : Int) : Except Failed Sys := do
  match ← fd2file s pid fd1 with
  | none => pure (s.ret pid (-E_INVAL))
  | some (u, j) => do
    match ← filemap_alloc s pid fd2 with
    | .inl ret => pure (s.ret pid ret)
    | .inr (t, i, s) => do
      let s ← filemap_dup s t i u j
      let f ← s.file t i
      pure (s.ret pid f.fd)

/-! ## Whole tables -/

/-- The loop of `dup_fs` over the files that are left. -/
def dupLoop (t u : Tab) : List Fd → Sys → Except Failed Sys
  | [], s => .ok s
  | i :: is, s => do
    let f ← s.file u i
    let dst ← s.file t i
    let s ← if f.status = .FD_OPENED then
        filemap_dup (s.setFile t i { dst with status := .FD_INIT }) t i u i
      else pure s
    dupLoop t u is s

/-- `dup_fs` to the table `t` from the table `u`. -/
def dup_fs (s : Sys) (t u : Tab) : Except Failed Sys := do
  let dst ← s.fs t
  let old ← s.fs u
  if dst.fs_count ≠ 0 ∨ old.fs_count = 0 then .error .dup_fs
  else
    let s := s.setTable t { dst with pwd := old.pwd }
    dupLoop t u (List.finRange FS_STRUCT_NENTRY) (match old.pwd with
      | some node => inode_ref_inc s node
      | none => s)

/-- The end of `copy_fs`: the child has the table `t`. -/
def goodFs (s : Sys) (pid child : Pid) (t : Tab) : Except Failed Sys := do
  let fs ← s.fs t
  let s := s.setTable t { fs with fs_count := fs.fs_count + 1 }
  pure { s with
    procs := insert child s.procs
    fs_struct := update s.fs_struct child (some t)
    calls := .forking pid child :: s.calls }

/-- `copy_fs` for the child of `pid`. `place` is the memory for a new table, if there is some. -/
def copy_fs (s : Sys) (pid child : Pid) (clone_fs : Bool) (place : Option Tab) : Except Failed Sys :=
  match s.fs_struct pid with
  | none => .error .copy_fs
  | some u =>
    if clone_fs then goodFs s pid child u
    else
      match place with
      | none => .ok (s.ret pid (-E_NO_MEM))
      | some t => do
        let s ← dup_fs ({ s with tabs := insert t s.tabs }.setTable t fs_create) t u
        goodFs s pid child t

/-- The end of `put_fs`: a fork that failed returns to the parent. -/
def putDone (s : Sys) : Option Pid → Sys
  | some pid => s.ret pid (-E_NO_MEM)
  | none => s

/-- `fs_destroy` up to its loop. -/
def fs_destroy (s : Sys) (t : Tab) (owner : Option Pid) : Except Failed Sys := do
  let fs ← s.fs t
  if fs.fs_count ≠ 0 then .error .fs_destroy
  else
    let s ← match fs.pwd with
      | some node => inode_ref_dec s node
      | none => pure s
    pure (s.push (.destroy t 0 owner))

def put_fs (s : Sys) (pid : Pid) (owner : Option Pid) : Except Failed Sys :=
  match s.fs_struct pid with
  | none => .ok (putDone s owner)
  | some t => do
    let fs ← s.fs t
    let s := { s with procs := s.procs.erase pid }.setTable t { fs with fs_count := fs.fs_count - 1 }
    if fs.fs_count - 1 = 0 then fs_destroy s t owner else pure (putDone s owner)

/-- One turn of the loop of `fs_destroy`, or its end with `kfree`. -/
def destroyStep (s : Sys) (t : Tab) (i : Nat) (owner : Option Pid) : Except Failed Sys :=
  if h : i < FS_STRUCT_NENTRY then do
    let f ← s.file t ⟨i, h⟩
    if f.status = .FD_OPENED then filemap_close s t ⟨i, h⟩ (.destroy owner)
    else goNext s t ⟨i, h⟩ (.destroy owner)
  else .ok (putDone { s with tabs := s.tabs.erase t } owner)

/-- `fs_closeall` up to its loop, which leaves `stdin` and `stdout` alone. -/
def fs_closeall (s : Sys) (pid : Pid) : Except Failed Sys :=
  match s.fs_struct pid with
  | none => .error .fs_closeall
  | some t => do
    let fs ← s.fs t
    if fs.fs_count = 0 then .error .fs_closeall else pure (s.push (.closeall pid t 2))

/-- One turn of the loop of `fs_closeall`, or its end. -/
def closeallStep (s : Sys) (pid : Pid) (t : Tab) (i : Nat) : Except Failed Sys :=
  if h : i < FS_STRUCT_NENTRY then do
    let f ← s.file t ⟨i, h⟩
    if f.status = .FD_OPENED then filemap_close s t ⟨i, h⟩ (.closeall pid)
    else goNext s t ⟨i, h⟩ (.closeall pid)
  else .ok s

/-- `vfs_set_curdir` to a directory. -/
def vfs_set_curdir (s : Sys) (pid : Pid) (dir : Node) : Except Failed Sys :=
  match s.fs_struct pid with
  | none => .error .get_filemap
  | some t => do
    let fs ← s.fs t
    if fs.pwd = some dir then pure s
    else
      let s := (inode_ref_inc s dir).setTable t { fs with pwd := some dir }
      match fs.pwd with
      | some node => inode_ref_dec s node
      | none => pure s

/-- `inode_kill`, at which `sfs_reclaim` ends. -/
def inode_kill (s : Sys) (node : Node) : Except Failed Sys :=
  if s.ref_count node ≠ 0 ∨ s.open_count node ≠ 0 then .error .inode_kill else .ok s

/-! ## Steps -/

/-- What happens next, with what the other parts of the kernel answer. The last three are what they do
with an inode by themselves. -/
inductive Event
  | file_open (pid : Pid) (open_flags : Word)
  | lookedUp (pid : Pid) (t : Tab) (i : Fd) (open_flags : Word) (answer : Lookup)
  | truncated (pid : Pid) (t : Tab) (i : Fd) (open_flags : Word) (node : Node) (ret : Int)
    (fstat : Int) (st_size : Word)
  | failingDone (pid : Pid) (t : Tab) (i : Fd) (node : Node) (value : Int)
  | failedDone (pid : Pid) (t : Tab) (i : Fd) (value : Int)
  | file_io (pid : Pid) (fd : Int) (op : Op)
  | ioDone (pid : Pid) (t : Tab) (i : Fd) (op : Op) (answer : Answer)
  | file_close (pid : Pid) (fd : Int)
  | closingDone (t : Tab) (i : Fd) (node : Node) (next : Next)
  | closedDone (t : Tab) (i : Fd) (next : Next)
  | file_dup (pid : Pid) (fd1 fd2 : Int)
  | copy_fs (pid child : Pid) (clone_fs : Bool) (place : Option Tab)
  | forkDone (pid child : Pid) (copied : Bool)
  | put_fs (pid : Pid)
  | destroyStep (t : Tab) (i : Nat) (owner : Option Pid)
  | fs_closeall (pid : Pid)
  | closeallStep (pid : Pid) (t : Tab) (i : Nat)
  | vfs_set_curdir (pid : Pid) (dir : Node)
  | vop_ref_inc (node : Node)
  | vop_ref_dec (node : Node)
  | inode_kill (node : Node)

def Event.step (s : Sys) : Event → Except Failed Sys
  | .file_open pid flags => filetable.file_open s pid flags
  | .lookedUp pid t i flags answer =>
    filetable.lookedUp (s.drop (.lookup pid t i flags)) pid t i flags answer
  | .truncated pid t i flags node ret fstat st_size =>
    filetable.truncated (s.drop (.truncate pid t i flags node)) pid t i flags node ret fstat st_size
  | .failingDone pid t i node value =>
    filetable.failingDone (s.drop (.failing pid t i node value)) pid t i node value
  | .failedDone pid t i value => filemap_free (s.drop (.failed pid t i value)) t i (.ret pid value)
  | .file_io pid fd op => filetable.file_io s pid fd op
  | .ioDone pid t i op answer => filetable.ioDone (s.drop (.io pid t i op)) pid t i op answer
  | .file_close pid fd => filetable.file_close s pid fd
  | .closingDone t i node next => filetable.closingDone (s.drop (.closing t i node next)) t i node next
  | .closedDone t i next => filetable.closedDone (s.drop (.closed t i next)) t i next
  | .file_dup pid fd1 fd2 => filetable.file_dup s pid fd1 fd2
  | .copy_fs pid child clone_fs place => filetable.copy_fs s pid child clone_fs place
  | .forkDone pid child copied =>
    let s := s.drop (.forking pid child)
    if copied then .ok (s.ret pid child) else filetable.put_fs s child (some pid)
  | .put_fs pid => filetable.put_fs s pid none
  | .destroyStep t i owner => filetable.destroyStep (s.drop (.destroy t i owner)) t i owner
  | .fs_closeall pid => filetable.fs_closeall s pid
  | .closeallStep pid t i => filetable.closeallStep (s.drop (.closeall pid t i)) pid t i
  | .vfs_set_curdir pid dir => filetable.vfs_set_curdir s pid dir
  | .vop_ref_inc node =>
    .ok { inode_ref_inc s node with others := update s.others node (s.others node + 1) }
  | .vop_ref_dec node =>
    inode_ref_dec { s with others := update s.others node (s.others node - 1) } node
  | .inode_kill node => filetable.inode_kill s node

/-- The process that the way back belongs to. -/
def Next.pids : Next → List Pid
  | .ret pid _ => [pid]
  | .closeall pid => [pid]
  | .destroy owner => owner.toList

/-- The processes that are inside the call. -/
def Call.pids : Call → List Pid
  | .lookup pid _ _ _ => [pid]
  | .truncate pid _ _ _ _ => [pid]
  | .failing pid _ _ _ _ => [pid]
  | .failed pid _ _ _ => [pid]
  | .io pid _ _ _ => [pid]
  | .closing _ _ _ next => next.pids
  | .closed _ _ next => next.pids
  | .closeall pid _ _ => [pid]
  | .destroy _ _ owner => owner.toList
  | .forking pid child => [pid, child]

/-- A process that can make a call: it has a table and is in no other call. -/
def Sys.runs (s : Sys) (pid : Pid) : Prop := pid ∈ s.procs ∧ ∀ c ∈ s.calls, pid ∉ c.pids

instance (s : Sys) (pid : Pid) : Decidable (s.runs pid) := inferInstanceAs (Decidable (_ ∧ _))

/-- The event can come now: a process makes one call at a time, `kmalloc` and `alloc_proc` give what is
not in use, references are given back by those who have them, and `sfs_reclaim` destroys an inode
only without references. -/
def Event.Allowed (s : Sys) : Event → Prop
  | .file_open pid _ => s.runs pid
  | .lookedUp pid t i flags _ => .lookup pid t i flags ∈ s.calls
  | .truncated pid t i flags node _ _ _ => .truncate pid t i flags node ∈ s.calls
  | .failingDone pid t i node value => .failing pid t i node value ∈ s.calls
  | .failedDone pid t i value => .failed pid t i value ∈ s.calls
  | .file_io pid _ _ => s.runs pid
  | .ioDone pid t i op _ => .io pid t i op ∈ s.calls
  | .file_close pid _ => s.runs pid
  | .closingDone t i node next => .closing t i node next ∈ s.calls
  | .closedDone t i next => .closed t i next ∈ s.calls
  | .file_dup pid _ _ => s.runs pid
  | .copy_fs pid child _ place => s.runs pid ∧ child ∉ s.procs ∧ ∀ t ∈ place, t ∉ s.tabs
  | .forkDone pid child _ => .forking pid child ∈ s.calls
  | .put_fs pid => s.runs pid
  | .destroyStep t i owner => .destroy t i owner ∈ s.calls
  | .fs_closeall pid => s.runs pid
  | .closeallStep pid t i => .closeall pid t i ∈ s.calls
  | .vfs_set_curdir pid _ => s.runs pid
  | .vop_ref_inc _ => True
  | .vop_ref_dec node => 0 < s.others node
  | .inode_kill node => s.ref_count node = 0

instance (s : Sys) (e : Event) : Decidable (e.Allowed s) := by
  cases e <;> unfold Event.Allowed <;> infer_instance

end nehcpu.kernel.filetable
