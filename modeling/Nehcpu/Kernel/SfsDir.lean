-- The directories of the simple file system: the entries of a directory, the searches among them,
-- and `file_getdirentry`, which tells one name and where the next one is.
import Nehcpu.Kernel.FileTable
import Nehcpu.Kernel.SfsMap

namespace nehcpu.kernel.fs

open Function nehcpu.command nehcpu.command.Cmd nehcpu.buffer

def SFS_MAX_FNAME_LEN : Nat := 255

/-- `sizeof` of the name of an entry. -/
def sfs_dentry_size : Nat := SFS_MAX_FNAME_LEN + 1

def E_NOENT : Int := 16

/-! ## Entries -/

/-- `name` has `sfs_dentry_size` bytes. -/
structure sfs_disk_entry where
  ino : Nat
  name : List Byte

/-- `sizeof(struct sfs_disk_entry)` -/
def sizeof_entry : Nat := 4 + sfs_dentry_size

/-- The entry in the bytes that it was read from, with the zero that is put behind the name. -/
def sfs_disk_entry.load (bs : List Byte) : sfs_disk_entry where
  ino := leNat (bs.take 4)
  name := (bs.drop 4).set SFS_MAX_FNAME_LEN 0

/-- The string in an array of `char`. -/
def str (bs : List Byte) : List Byte := bs.takeWhile (· ≠ 0)

def sfs_dirent_read_nolock (dop_io : Access → Int) (garbage slot : Nat) : SfsM sfs_disk_entry := do
  let din := (← get).sin.din
  check (din.type = SFS_TYPE_DIR ∧ slot < din.blocks)
  let ino ← sfs_bmap_load_nolock dop_io garbage slot
  assert_inuse ino
  let bs ← sfs_rbuf (dop_io .dataRead) sizeof_entry ino 0
  pure (.load bs)

/-- The loop of `sfs_dirent_search_nolock` over the `n` slots from `i` on, with what `*ino_store` is
set to. -/
def searchLoop (env : Around) (name : List Byte) : Nat → Nat → SfsM Nat
  | _, 0 => throw (-E_NOENT)
  | i, n + 1 => do
    let entry ← sfs_dirent_read_nolock (env.dop_io i) (env.ino i) i
    if entry.ino = 0 then searchLoop env name (i + 1) n
    else if name = str entry.name then pure entry.ino
    else searchLoop env name (i + 1) n

/-- `memory` says that `kmalloc` has room for the entry. -/
def sfs_dirent_search_nolock (env : Around) (memory : Bool) (name : List Byte) : SfsM Nat := do
  check (name.length ≤ SFS_MAX_FNAME_LEN)
  if !memory then throw (-E_NO_MEM)
  else searchLoop env name 0 (← get).sin.din.blocks

def findinoLoop (env : Around) (ino : Nat) : Nat → Nat → SfsM sfs_disk_entry
  | _, 0 => throw (-E_NOENT)
  | i, n + 1 => do
    let entry ← sfs_dirent_read_nolock (env.dop_io i) (env.ino i) i
    if entry.ino = ino then pure entry else findinoLoop env ino (i + 1) n

def sfs_dirent_findino_nolock (env : Around) (ino : Nat) : SfsM sfs_disk_entry := do
  findinoLoop env ino 0 (← get).sin.din.blocks

def getdirentryLoop (env : Around) : Nat → Nat → Nat → SfsM sfs_disk_entry
  | _, 0, _ => throw (-E_NOENT)
  | i, n + 1, slot => do
    let entry ← sfs_dirent_read_nolock (env.dop_io i) (env.ino i) i
    if entry.ino ≠ 0 then
      if slot = 0 then pure entry else getdirentryLoop env (i + 1) n (slot - 1)
    else getdirentryLoop env (i + 1) n slot

def sfs_getdirentry_sub_nolock (env : Around) (slot : Nat) : SfsM sfs_disk_entry := do
  getdirentryLoop env 0 (← get).sin.din.blocks slot

/-! ## `struct iobuf` -/

/-- `io_base` is a place in a memory that goes with the buffer. -/
structure iobuf where
  io_base : Nat
  io_offset : Int
  io_len : Nat
  io_resid : Nat

def iobuf_init (base len : Nat) (offset : Int) : iobuf := ⟨base, offset, len, len⟩

def iobuf_used (iob : iobuf) : Nat := iob.io_len - iob.io_resid

def iobuf_skip (iob : iobuf) (n : Nat) : SfsM iobuf := do
  check (n ≤ iob.io_resid)
  pure { iob with
    io_base := iob.io_base + n
    io_offset := off_add iob.io_offset n
    io_resid := iob.io_resid - n }

/-- `iobuf_move` with `m2b`: into the buffer. -/
def iobuf_move (iob : iobuf) (mem : Buffer) (data : List Byte) (len : Nat) :
    SfsM (Int × iobuf × Buffer) := do
  let alen := min iob.io_resid len
  let iob' ← iobuf_skip iob alen
  pure (if len - alen = 0 then 0 else -E_NO_MEM, iob', patch mem iob.io_base (data.take alen))

/-! ## `file_getdirentry` -/

/-- What a call meets: `kmalloc` with room or not, and the device. -/
structure Meets where
  memory : Bool
  env : Around

def sfs_getdirentry (m : Meets) (iob : iobuf) (mem : Buffer) : SfsM (Int × iobuf × Buffer) := do
  if !m.memory then pure (-E_NO_MEM, iob, mem)
  else
    let din := (← get).sin.din
    let offset := iob.io_offset
    if offset < 0 ∨ offset.toNat % sfs_dentry_size ≠ 0 then pure (-E_INVAL, iob, mem)
    else
      let slot := offset.toNat / sfs_dentry_size
      if din.blocks < slot then pure (-E_NOENT, iob, mem)
      else
        match ← attempt (sfs_getdirentry_sub_nolock m.env slot) with
        | .error ret => pure (ret, iob, mem)
        | .ok entry => iobuf_move iob mem entry.name sfs_dentry_size

/-- `struct dirent`: `name` is the memory from the array of `sfs_dentry_size` bytes on. -/
structure dirent where
  offset : Int
  name : Buffer

/-- The file that is open as `fd`. -/
def fd2file (filemap : filetable.Fd → filetable.file) (fd : Int) : Option filetable.file := do
  let i ← filetable.testfd fd
  let file := filemap i
  if file.status = .FD_OPENED ∧ file.fd = fd then some file else none

/-- The call works on the inode of the file. `filemap_acquire` and `filemap_release` around
`vop_getdirentry` leave the file as it was. -/
def file_getdirentry (filemap : filetable.Fd → filetable.file) (m : Meets) (fd : Int)
    (direntp : dirent) : SfsM (Int × dirent) := do
  match fd2file filemap fd with
  | none => pure (-E_INVAL, direntp)
  | some _ =>
    let iob := iobuf_init 0 sfs_dentry_size direntp.offset
    let (ret, iob, name) ← sfs_getdirentry m iob direntp.name
    if ret = 0 then pure (ret, ⟨off_add direntp.offset (iobuf_used iob), name⟩)
    else pure (ret, ⟨direntp.offset, name⟩)

/-- One call after the other with the same `struct dirent`: what each returns and leaves in it. -/
def readAll (filemap : filetable.Fd → filetable.file) (fd : Int) :
    List Meets → dirent → SfsM (List (Int × dirent))
  | [], _ => pure []
  | m :: ms, direntp => do
    let r ← file_getdirentry filemap m fd direntp
    let rs ← readAll filemap fd ms r.2
    pure (r :: rs)

end nehcpu.kernel.fs
