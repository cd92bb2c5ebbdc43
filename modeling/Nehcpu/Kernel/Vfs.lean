-- The layer above the file systems: `get_device` and `vfs_lookup`, `vfs_open` and `vfs_close`, and
-- `sysfile_open` above them. A call of a process runs to its end here, and what the devices and
-- `kmalloc` do on the way is given to it.
import Nehcpu.Kernel.SfsDir

namespace nehcpu.kernel.vfs

open Function nehcpu.command nehcpu.command.Cmd nehcpu.buffer nehcpu.kernel.fs
open filetable (Fd FS_STRUCT_NENTRY accmode flag O_CREAT O_EXCL O_TRUNC O_APPEND)

abbrev Flags := BitVec 32

def SFS_BLKN_ROOT : Nat := 1

def MAX_INODE_COUNT : Nat := 0x10000

def E_NO_DEV : Int := 13
def E_NA_DEV : Int := 14
def E_ISDIR : Int := 17
def E_NOTDIR : Int := 18
def E_MAX_OPEN : Int := 22
def E_EXISTS : Int := 23

/-! ## The data -/

/-- A mounted file system. -/
abbrev Fs := Nat

/-- A `struct inode`: of a device, or of a file system with its number there. -/
inductive Node
  | device (dev : Nat)
  | sfs (fs : Fs) (ino : Nat)
deriving DecidableEq

/-- The counts of a `struct inode`. -/
structure inode where
  ref_count : Nat
  open_count : Nat
deriving DecidableEq

structure vfs_dev_t where
  devname : List Byte
  devnode : Option Node
  fs : Option Fs
  mountable : Bool

/-- A file system with what its inodes hold, in memory or on the disk: loading and `sfs_reclaim`
change nothing of this. -/
structure Mount where
  sfs : sfs_fs
  sin : Nat → sfs_inode

structure file where
  status : filetable.Status
  readable : Bool
  writable : Bool
  fd : Int
  pos : BitVec 32
  node : Option Node
  open_count : Nat

/-- `mem` has the inodes that are in memory; `pwd` and `filemap` are those of the process. -/
structure Vfs where
  mem : Node → Option inode
  mount : Fs → Mount
  vdev_list : List vfs_dev_t
  bootfs_node : Option Node
  pwd : Option Node
  filemap : Fd → file

abbrev VfsM := Cmd Vfs Int

/-- What `sfs_load_inode` meets: memory for `din` and for the inode, and the device. -/
structure Load where
  din : Bool
  read : Int
  node : Bool

/-- What `sfs_lookup_once` meets. -/
structure Once where
  memory : Bool
  env : Around
  load : Load

/-- What a call meets. `keeps` says of which inodes the `sfs_reclaim` fails, if it comes to it. -/
structure Answers where
  root : Load
  once : Once
  keeps : Node → Bool
  dop_open : Int
  truncate : Around

/-! ## Inodes -/

def Vfs.call (v : Vfs) (fs : Fs) (ino : Nat) : Call := ⟨(v.mount fs).sfs, (v.mount fs).sin ino⟩

def Vfs.setCall (v : Vfs) (fs : Fs) (ino : Nat) (c : Call) : Vfs :=
  { v with mount := update v.mount fs ⟨c.sfs, update (v.mount fs).sin ino c.sin⟩ }

/-- A call of the file system on one of its inodes. -/
def within {α : Type} (fs : Fs) (ino : Nat) (m : SfsM α) : VfsM α := fun v =>
  match m (v.call fs ino) with
  | .ok a c => .ok a (v.setCall fs ino c)
  | .fail e c => .fail e (v.setCall fs ino c)
  | .stop => .stop

/-- An inode that is not in memory is not there to be used. -/
def getInode (node : Node) : VfsM inode := do
  match (← get).mem node with
  | some i => pure i
  | none => halt

def setInode (node : Node) (i : Option inode) : VfsM Unit :=
  modify fun v => { v with mem := update v.mem node i }

def inode_check (node : Node) : VfsM Unit := do
  let i ← getInode node
  check (i.open_count ≤ i.ref_count ∧ i.ref_count < MAX_INODE_COUNT ∧
    i.open_count < MAX_INODE_COUNT)

def vop_ref_inc (node : Node) : VfsM Unit := do
  let i ← getInode node
  setInode node (some { i with ref_count := i.ref_count + 1 })

/-- `sfs_reclaim`, which ends in `inode_kill` or keeps the inode. The inode of a device has no such
operation. -/
def vop_reclaim (keeps : Node → Bool) (node : Node) : VfsM Unit := do
  inode_check node
  match node with
  | .device _ => halt
  | .sfs _ _ =>
    if keeps node then pure ()
    else
      let i ← getInode node
      check (i.ref_count = 0 ∧ i.open_count = 0)
      setInode node none

def vop_ref_dec (keeps : Node → Bool) (node : Node) : VfsM Unit := do
  let i ← getInode node
  check (0 < i.ref_count)
  setInode node (some { i with ref_count := i.ref_count - 1 })
  if i.ref_count - 1 = 0 then vop_reclaim keeps node else pure ()

def vop_open_inc (node : Node) : VfsM Unit := do
  let i ← getInode node
  setInode node (some { i with open_count := i.open_count + 1 })

/-- A file system writes the inode back, and only a warning tells that this has failed. -/
def vop_close (node : Node) : VfsM Unit := inode_check node

def vop_open_dec (node : Node) : VfsM Unit := do
  let i ← getInode node
  check (0 < i.open_count)
  setInode node (some { i with open_count := i.open_count - 1 })
  if i.open_count - 1 = 0 then vop_close node else pure ()

/-! ## The simple file system -/

/-- `sizeof(struct sfs_disk_inode)` -/
def sizeof_din : Nat := 64

/-- The parts with `lookup_sfs_nolock`, with the read of the inode and with `sfs_create_inode`. -/
def sfs_load_inode (a : Load) (fs : Fs) (ino : Nat) : VfsM Node := do
  let node := Node.sfs fs ino
  match (← get).mem node with
  | some _ => vop_ref_inc node
  | none =>
    if !a.din then throw (-E_NO_MEM)
    else
      within fs ino do
        assert_inuse ino
        let _ ← sfs_rbuf a.read sizeof_din ino 0
        pure ()
      let din := ((← get).call fs ino).sin.din
      check (din.nlinks ≠ 0)
      if !a.node then throw (-E_NO_MEM)
      else
        check (din.type = SFS_TYPE_DIR ∨ din.type = SFS_TYPE_FILE)
        setInode node (some ⟨1, 0⟩)
  pure node

/-- `sfs_get_root`, which stops the kernel where the root is not to be had. -/
def fsop_get_root (a : Answers) (fs : Fs) : VfsM Node := do
  match ← attempt (sfs_load_inode a.root fs SFS_BLKN_ROOT) with
  | .ok node => pure node
  | .error _ => halt

def sfs_lookup_once (a : Once) (fs : Fs) (ino : Nat) (name : List Byte) : VfsM Node := do
  let sub ← within fs ino (sfs_dirent_search_nolock a.env a.memory name)
  sfs_load_inode a.load fs sub

def SLASH : Byte := 47#8

def COLON : Byte := 58#8

def sfs_lookup (a : Answers) (fs : Fs) (ino : Nat) (path : List Byte) : VfsM Node := do
  let node := Node.sfs fs ino
  check (path ≠ [] ∧ path.head? ≠ some SLASH)
  vop_ref_inc node
  if ((← get).call fs ino).sin.din.type ≠ SFS_TYPE_DIR then
    vop_ref_dec a.keeps node
    throw (-E_NOTDIR)
  else
    let r ← attempt (sfs_lookup_once a.once fs ino path)
    vop_ref_dec a.keeps node
    match r with
    | .ok subnode => pure subnode
    | .error ret => throw ret

def sfs_opendir (open_flags : Flags) : VfsM Unit :=
  match accmode open_flags with
  | some (true, false) => if flag open_flags O_APPEND then throw (-E_ISDIR) else pure ()
  | _ => throw (-E_ISDIR)

/-! ## Devices -/

def dev_lookup (node : Node) (path : List Byte) : VfsM Node :=
  if path ≠ [] then throw (-E_NOENT)
  else do
    vop_ref_inc node
    pure node

def dev_open (dop_open : Int) (open_flags : Flags) : VfsM Unit :=
  if flag open_flags (O_CREAT ||| O_TRUNC ||| O_EXCL ||| O_APPEND) then throw (-E_INVAL)
  else if dop_open ≠ 0 then throw dop_open
  else pure ()

/-! ## The operations of an inode -/

/-- The operations of a directory, not those of a file. -/
def isDir (fs : Fs) (ino : Nat) : VfsM Bool := do
  pure (((← get).call fs ino).sin.din.type = SFS_TYPE_DIR)

/-- A file has no such operation. -/
def vop_lookup (a : Answers) (node : Node) (path : List Byte) : VfsM Node := do
  match node with
  | .device _ =>
    inode_check node
    dev_lookup node path
  | .sfs fs ino =>
    check ((← isDir fs ino) = true)
    inode_check node
    sfs_lookup a fs ino path

def vop_open (a : Answers) (node : Node) (open_flags : Flags) : VfsM Unit := do
  inode_check node
  match node with
  | .device _ => dev_open a.dop_open open_flags
  | .sfs fs ino => if ← isDir fs ino then sfs_opendir open_flags else pure ()

/-- Only a file has this operation. -/
def vop_truncate (a : Answers) (node : Node) (len : Int) : VfsM Unit := do
  match node with
  | .device _ => halt
  | .sfs fs ino =>
    check ((← isDir fs ino) = false)
    inode_check node
    within fs ino (sfs_truncfile a.truncate len)

/-- No inode has this operation. -/
def vop_create (_ : Node) (_ : List Byte) (_ : Bool) : VfsM Node := halt

/-! ## Paths -/

def vfs_get_curdir : VfsM Node := do
  match (← get).pwd with
  | some node =>
    vop_ref_inc node
    pure node
  | none => throw (-E_NOENT)

def vfs_get_bootfs : VfsM Node := do
  match (← get).bootfs_node with
  | some node =>
    vop_ref_inc node
    pure node
  | none => throw (-E_NOENT)

def vfs_get_root (a : Answers) (devname : List Byte) : VfsM Node := do
  match (← get).vdev_list.find? fun vdev => vdev.devname = devname with
  | none => throw (-E_NO_DEV)
  | some vdev =>
    match vdev.fs with
    | some fs => fsop_get_root a fs
    | none =>
      if !vdev.mountable then
        match vdev.devnode with
        | some devnode =>
          vop_ref_inc devnode
          pure devnode
        | none => halt
      else throw (-E_NA_DEV)

/-- The first colon or slash of a path, with its place. -/
def firstMark : List Byte → Option (Nat × Byte)
  | [] => none
  | b :: path =>
    if b = COLON ∨ b = SLASH then some (0, b)
    else (firstMark path).map fun (i, b) => (i + 1, b)

/-- A path behind its slashes. -/
def skipSlashes (path : List Byte) : List Byte := path.dropWhile (· = SLASH)

/-- The part of `get_device` for a path behind a colon. -/
def currentRoot (a : Answers) : VfsM Node := do
  let node ← vfs_get_curdir
  match node with
  | .device _ => halt
  | .sfs fs _ =>
    let root ← fsop_get_root a fs
    vop_ref_dec a.keeps node
    pure root

/-- `*subpath` and `*node_store` -/
def get_device (a : Answers) (path : List Byte) : VfsM (List Byte × Node) := do
  match firstMark path with
  | none => pure (path, ← vfs_get_curdir)
  | some (i, b) =>
    if b ≠ COLON ∧ i ≠ 0 then pure (path, ← vfs_get_curdir)
    else if b = COLON ∧ 0 < i then
      pure (skipSlashes (path.drop (i + 1)), ← vfs_get_root a (path.take i))
    else if b = SLASH then
      pure (skipSlashes (path.drop 1), ← vfs_get_bootfs)
    else pure (skipSlashes (path.drop 1), ← currentRoot a)

/-- What `get_device` makes of the path that it is given: the name of a device is cut off. -/
def editedPath (path : List Byte) : List Byte :=
  match firstMark path with
  | some (i, b) => if b = COLON ∧ 0 < i then path.take i else path
  | none => path

def vfs_lookup (a : Answers) (path : List Byte) : VfsM Node := do
  let (path, node) ← get_device a path
  if path ≠ [] then
    let r ← attempt (vop_lookup a node path)
    vop_ref_dec a.keeps node
    match r with
    | .ok found => pure found
    | .error ret => throw ret
  else pure node

/-- `*node_store` and `*endp` -/
def vfs_lookup_parent (a : Answers) (path : List Byte) : VfsM (Node × List Byte) := do
  let (path, node) ← get_device a path
  pure (node, path)

/-! ## `vfs_open` -/

/-- The part of `vfs_open` behind the lookup. -/
def openNode (a : Answers) (node : Node) (open_flags : Flags) : VfsM Node := do
  match ← attempt (vop_open a node open_flags) with
  | .error ret =>
    vop_ref_dec a.keeps node
    throw ret
  | .ok _ =>
    vop_open_inc node
    if flag open_flags O_TRUNC ∨ flag open_flags O_CREAT then
      match ← attempt (vop_truncate a node 0) with
      | .error ret =>
        vop_open_dec node
        vop_ref_dec a.keeps node
        throw ret
      | .ok _ => pure node
    else pure node

def vfs_open (a : Answers) (path : List Byte) (open_flags : Flags) : VfsM Node := do
  match accmode open_flags with
  | none => throw (-E_INVAL)
  | some (_, can_write) =>
    if flag open_flags O_TRUNC ∧ ¬ can_write then throw (-E_INVAL)
    else
      let excl := flag open_flags O_EXCL
      let create := flag open_flags O_CREAT
      match ← attempt (vfs_lookup a path) with
      | .error ret =>
        if ret = -16 ∧ create then
          let (dir, name) ← vfs_lookup_parent a (editedPath path)
          let node ← vop_create dir name excl
          openNode a node open_flags
        else throw ret
      | .ok node => if excl ∧ create then throw (-E_EXISTS) else openNode a node open_flags

def vfs_close (a : Answers) (node : Node) : VfsM Unit := do
  vop_open_dec node
  vop_ref_dec a.keeps node

/-! ## `sysfile_open` -/

def setFile (i : Fd) (f : file → file) : VfsM Unit :=
  modify fun v => { v with filemap := update v.filemap i (f (v.filemap i)) }

/-- `filemap_alloc` for `NO_FD` -/
def filemap_alloc : VfsM Fd := do
  let filemap := (← get).filemap
  match (List.finRange FS_STRUCT_NENTRY).find? fun i => (filemap i).status = .FD_NONE with
  | none => throw (-E_MAX_OPEN)
  | some i =>
    check ((filemap i).open_count = 0)
    setFile i fun f => { f with status := .FD_INIT, node := none }
    pure i

/-- `filemap_free` of a file that was not opened. -/
def filemap_free (i : Fd) : VfsM Unit := do
  let f := (← get).filemap i
  check (f.status = .FD_INIT ∧ f.open_count = 0)
  setFile i fun f => { f with status := .FD_NONE }

def filemap_open (i : Fd) : VfsM Unit := do
  let f := (← get).filemap i
  check (f.status = .FD_INIT ∧ f.node.isSome)
  setFile i fun f => { f with status := .FD_OPENED, open_count := f.open_count + 1 }

/-- `st_size` of `sfs_fstat`, which does not fail. No device is opened with `O_APPEND`. -/
def vop_fstat (node : Node) : VfsM (BitVec 32) := do
  inode_check node
  match node with
  | .device _ => halt
  | .sfs fs ino =>
    let din := ((← get).call fs ino).sin.din
    check (din.type = SFS_TYPE_DIR ∨ din.type = SFS_TYPE_FILE ∨ din.type = SFS_TYPE_LINK)
    pure (BitVec.ofNat 32 din.size)

/-- Where the file starts. -/
def openPos (node : Node) (open_flags : Flags) : VfsM (BitVec 32) :=
  if flag open_flags O_APPEND then vop_fstat node else pure 0#32

/-- The part of `file_open` behind `vfs_open`. -/
def openFile (i : Fd) (readable writable : Bool) (open_flags : Flags) (node : Node) : VfsM Int := do
  let pos ← openPos node open_flags
  setFile i fun f => { f with pos, node := some node, readable, writable }
  filemap_open i
  pure ((← get).filemap i).fd

def file_open (a : Answers) (path : List Byte) (open_flags : Flags) : VfsM Int := do
  match accmode open_flags with
  | none => throw (-E_INVAL)
  | some (readable, writable) =>
    let i ← filemap_alloc
    match ← attempt (vfs_open a path open_flags) with
    | .error ret =>
      filemap_free i
      throw ret
    | .ok node => openFile i readable writable open_flags node

/-- `copied` is what `copy_path` gives: the path, or its error. -/
def sysfile_open (a : Answers) (copied : Except Int (List Byte)) (open_flags : Flags) : VfsM Int :=
  match copied with
  | .error ret => throw ret
  | .ok path => file_open a path open_flags

end nehcpu.kernel.vfs
