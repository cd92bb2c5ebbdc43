-- The simple file system of `kern/fs/sfs`: the bitmap of the free blocks, the block map of an inode
-- and the calls that read, write and cut a file. A call works on one inode under its lock.
import Mathlib.Logic.Function.Basic
import Mathlib.Data.Int.Notation
import Mathlib.Data.Int.DivMod
import Nehcpu.Lib.ByteBuffer
import Nehcpu.Lib.Command

namespace nehcpu.kernel.fs

open Function nehcpu.command nehcpu.command.Cmd nehcpu.buffer

def SFS_BLKSIZE : Nat := 4096

def SFS_BLKSIZE_SHIFT : Nat := 12

def SFS_NDIRECT : Nat := 12

def SFS_BLK_NENTRY : Nat := 1024

def SFS_MAX_FILE_SIZE : Nat := 1024 * 1024 * 128

def SFS_BLKN_SUPER : Nat := 0

def SFS_BLKN_FREEMAP : Nat := 2

def SFS_BLKBITS_SHIFT : Nat := 15

def SFS_TYPE_FILE : Nat := 1

def SFS_TYPE_DIR : Nat := 2

def SFS_TYPE_LINK : Nat := 3

def E_INVAL : Int := 3

def E_NO_MEM : Int := 4

def WORD_BITS : Nat := 32

/-! ## The data -/

/-- `struct bitmap`: a free block has its bit set. -/
structure bitmap where
  nbits : Nat
  nwords : Nat
  map : Nat → BitVec 32

/-- The fields of `struct sfs_super` that the calls use. -/
structure sfs_super where
  blocks : Nat
  unused_blocks : Nat

/-- `struct sfs_disk_inode`; `direct` has `SFS_NDIRECT` entries. -/
structure sfs_disk_inode where
  size : Nat
  type : Nat
  nlinks : Nat
  blocks : Nat
  direct : Nat → Nat
  indirect : Nat

/-- The inode in the block that it was read from. -/
def sfs_disk_inode.load (b : Buffer) : sfs_disk_inode where
  size := leAt 4 b 0
  type := leAt 2 b 4
  nlinks := leAt 2 b 6
  blocks := leAt 4 b 8
  direct i := if i < SFS_NDIRECT then leAt 4 b (12 + 4 * i) else 0
  indirect := leAt 4 b 60

structure sfs_inode where
  din : sfs_disk_inode
  ino : Nat
  dirty : Bool

/-- The mounted file system, with the blocks of its device. -/
structure sfs_fs where
  super : sfs_super
  super_dirty : Bool
  freemap : bitmap
  disk : Nat → Buffer

/-- What a call works on. -/
structure Call where
  sfs : sfs_fs
  sin : sfs_inode

/-- The accesses that a call makes for one block of the file. -/
inductive Access where
  | index
  | clearIndex
  | clear
  | linkRead
  | linkWrite
  | dataRead
  | dataWrite
deriving DecidableEq, Repr

/-- What a call finds around it: what `dop_io` returns for each access on behalf of each block of
the file (no call makes one access twice for one block), and what stands in the variable `ino` of
`sfs_bmap_get_nolock` before it is set. -/
structure Around where
  dop_io : Nat → Access → Int
  ino : Nat → Nat

abbrev SfsM := Cmd Call Int

/-! ## The bitmap -/

def mask (offset : Nat) : BitVec 32 := 1#32 <<< offset

def bitmap_alloc : SfsM Nat := do
  let c ← get
  let bm := c.sfs.freemap
  match (List.range bm.nwords).find? fun ix => bm.map ix != 0#32 with
  | none => throw (-E_NO_MEM)
  | some ix =>
    match (List.range WORD_BITS).find? fun offset => (bm.map ix &&& mask offset) != 0#32 with
    | none => halt
    | some offset => do
      modify fun c => { c with sfs := { c.sfs with freemap :=
        { bm with map := update bm.map ix (bm.map ix ^^^ mask offset) } } }
      pure (ix * WORD_BITS + offset)

def bitmap_test (index : Nat) : SfsM Bool := do
  let bm := (← get).sfs.freemap
  check (index < bm.nbits)
  pure ((bm.map (index / WORD_BITS) &&& mask (index % WORD_BITS)) != 0#32)

def bitmap_free (index : Nat) : SfsM Unit := do
  let bm := (← get).sfs.freemap
  check (index < bm.nbits)
  let ix := index / WORD_BITS
  check ((bm.map ix &&& mask (index % WORD_BITS)) = 0#32)
  modify fun c => { c with sfs := { c.sfs with freemap :=
    { bm with map := update bm.map ix (bm.map ix ||| mask (index % WORD_BITS)) } } }

/-! ## The device -/

/-- `sfs_rwblock_nolock` for a read with `check`. The device answers `ret`. -/
def rblock_nolock (ret : Int) (blkno : Nat) : SfsM Buffer := do
  let c ← get
  check (blkno ≠ 0 ∧ blkno < c.sfs.super.blocks)
  if ret ≠ 0 then throw ret else pure (c.sfs.disk blkno)

/-- `sfs_rwblock_nolock` for a write with `check`. -/
def wblock_nolock (ret : Int) (buf : Buffer) (blkno : Nat) : SfsM Unit := do
  let c ← get
  check (blkno ≠ 0 ∧ blkno < c.sfs.super.blocks)
  if ret ≠ 0 then throw ret
  else modify fun c => { c with sfs := { c.sfs with disk := update c.sfs.disk blkno buf } }

/-- One block with `sfs_rblock`. -/
def sfs_rblock (ret : Int) (blkno : Nat) : SfsM (List Byte) := do
  let b ← rblock_nolock ret blkno
  pure (slice b 0 SFS_BLKSIZE)

/-- One block with `sfs_wblock`. -/
def sfs_wblock (ret : Int) (buf : List Byte) (blkno : Nat) : SfsM Unit :=
  wblock_nolock ret (patch Buffer.zero 0 buf) blkno

def sfs_rbuf (ret : Int) (len blkno offset : Nat) : SfsM (List Byte) := do
  check (offset < SFS_BLKSIZE ∧ offset + len ≤ SFS_BLKSIZE)
  let b ← rblock_nolock ret blkno
  pure (slice b offset len)

/-- The block is read first, so the device answers twice. -/
def sfs_wbuf (rret wret : Int) (buf : List Byte) (blkno offset : Nat) : SfsM Unit := do
  check (offset < SFS_BLKSIZE ∧ offset + buf.length ≤ SFS_BLKSIZE)
  let b ← rblock_nolock rret blkno
  wblock_nolock wret (patch b offset buf) blkno

def sfs_clear_block (ret : Int) (blkno : Nat) : SfsM Unit :=
  wblock_nolock ret Buffer.zero blkno

/-! ## Blocks -/

def sfs_block_inuse (ino : Nat) : SfsM Bool := do
  let c ← get
  check (ino ≠ 0 ∧ ino < c.sfs.super.blocks)
  let bit ← bitmap_test ino
  pure (!bit)

def assert_inuse (ino : Nat) : SfsM Unit := do
  let inuse ← sfs_block_inuse ino
  check (inuse = true)

def sfs_block_alloc (ret : Int) : SfsM Nat := do
  let ino ← bitmap_alloc
  let c ← get
  check (0 < c.sfs.super.unused_blocks)
  modify fun c => { c with sfs := { c.sfs with
    super := { c.sfs.super with unused_blocks := c.sfs.super.unused_blocks - 1 }
    super_dirty := true } }
  assert_inuse ino
  sfs_clear_block ret ino
  pure ino

def sfs_block_free (ino : Nat) : SfsM Unit := do
  assert_inuse ino
  bitmap_free ino
  modify fun c => { c with sfs := { c.sfs with
    super := { c.sfs.super with unused_blocks := c.sfs.super.unused_blocks + 1 }
    super_dirty := true } }

/-! ## The block map -/

/-- The part of `sfs_bmap_get_sub_nolock` that makes the entry, with its two cleanups. -/
def linkNew (dop_io : Access → Int) (entp ent index : Nat) : SfsM (Nat × Nat) :=
  onFail (do
    let ino ← sfs_block_alloc (dop_io .clear)
    onFail (sfs_wbuf (dop_io .linkRead) (dop_io .linkWrite) (leBytes 4 ino) ent (index * 4))
      (sfs_block_free ino)
    pure (ent, ino))
  (if ent ≠ entp then sfs_block_free ent else pure ())

/-- What `*entp` and `*ino_store` are set to. -/
def sfs_bmap_get_sub_nolock (dop_io : Access → Int) (entp index : Nat) (create : Bool) :
    SfsM (Nat × Nat) := do
  check (index < SFS_BLK_NENTRY)
  if entp ≠ 0 then
    let bs ← sfs_rbuf (dop_io .index) 4 entp (index * 4)
    if leNat bs ≠ 0 ∨ !create then pure (entp, leNat bs)
    else linkNew dop_io entp entp index
  else if !create then pure (0, 0)
  else
    let ent ← sfs_block_alloc (dop_io .clearIndex)
    linkNew dop_io entp ent index

def set_direct (index ino : Nat) (c : Call) : Call :=
  { c with sin := { c.sin with
    din := { c.sin.din with direct := update c.sin.din.direct index ino }, dirty := true } }

def set_indirect (ent : Nat) (c : Call) : Call :=
  { c with sin := { c.sin with din := { c.sin.din with indirect := ent }, dirty := true } }

/-- The last lines of `sfs_bmap_get_nolock`. -/
def mapped (ino : Nat) : SfsM Nat :=
  if ino = 0 then pure ino
  else do
    assert_inuse ino
    pure ino

/-- Past the entries of the indirect block `ent` is the `ino` that nothing has set. -/
def sfs_bmap_get_nolock (dop_io : Access → Int) (garbage index : Nat) (create : Bool) :
    SfsM Nat := do
  let din := (← get).sin.din
  if index < SFS_NDIRECT then
    if din.direct index = 0 ∧ create then
      let ino ← sfs_block_alloc (dop_io .clear)
      modify (set_direct index ino)
      mapped ino
    else mapped (din.direct index)
  else if index - SFS_NDIRECT < SFS_BLK_NENTRY then
    let (ent, ino) ← sfs_bmap_get_sub_nolock dop_io din.indirect (index - SFS_NDIRECT) create
    if ent ≠ din.indirect then
      check (din.indirect = 0)
      modify (set_indirect ent)
      mapped ino
    else mapped ino
  else if garbage ≠ 0 then
    let (_, ino) ← sfs_bmap_get_sub_nolock dop_io garbage
      ((index - SFS_NDIRECT - SFS_BLK_NENTRY) % SFS_BLK_NENTRY) create
    mapped ino
  else mapped 0

def sfs_bmap_free_sub_nolock (dop_io : Access → Int) (ent index : Nat) : SfsM Unit := do
  let inuse ← sfs_block_inuse ent
  check (inuse = true ∧ index < SFS_BLK_NENTRY)
  let bs ← sfs_rbuf (dop_io .index) 4 ent (index * 4)
  if leNat bs ≠ 0 then
    sfs_wbuf (dop_io .linkRead) (dop_io .linkWrite) (leBytes 4 0) ent (index * 4)
    sfs_block_free (leNat bs)
  else pure ()

def sfs_bmap_free_nolock (dop_io : Access → Int) (index : Nat) : SfsM Unit := do
  let din := (← get).sin.din
  if index < SFS_NDIRECT then
    if din.direct index ≠ 0 then
      sfs_block_free (din.direct index)
      modify (set_direct index 0)
    else pure ()
  else if index - SFS_NDIRECT < SFS_BLK_NENTRY then
    if din.indirect ≠ 0 then
      sfs_bmap_free_sub_nolock dop_io din.indirect (index - SFS_NDIRECT)
    else pure ()
  else pure ()

def set_blocks (blocks : Nat) (c : Call) : Call :=
  { c with sin := { c.sin with din := { c.sin.din with blocks := blocks } } }

def set_dirty (c : Call) : Call := { c with sin := { c.sin with dirty := true } }

def set_size (size : Nat) (c : Call) : Call :=
  { c with sin := { c.sin with din := { c.sin.din with size := size }, dirty := true } }

/-- A block is added to the file where `index` is the end of it. `dirty` is not set here. -/
def sfs_bmap_load_nolock (dop_io : Access → Int) (garbage index : Nat) : SfsM Nat := do
  let din := (← get).sin.din
  check (index ≤ din.blocks)
  let create := index == din.blocks
  let ino ← sfs_bmap_get_nolock dop_io garbage index create
  assert_inuse ino
  if create then modify fun c => set_blocks (c.sin.din.blocks + 1) c else pure ()
  pure ino

def sfs_bmap_truncate_nolock (dop_io : Nat → Access → Int) : SfsM Unit := do
  let din := (← get).sin.din
  check (din.blocks ≠ 0)
  sfs_bmap_free_nolock (dop_io (din.blocks - 1)) (din.blocks - 1)
  modify fun c => set_dirty (set_blocks (c.sin.din.blocks - 1) c)

/-! ## Reading and writing -/

/-- One block with `sfs_buf_op`: a part of it, from `blkoff` on. A write takes the bytes from the
head of `buf`. The bytes that went through are returned. -/
def io_part (env : Around) (write : Bool) (buf : List Byte) (blkno blkoff size : Nat) :
    SfsM (List Byte) := do
  let ino ← sfs_bmap_load_nolock (env.dop_io blkno) (env.ino blkno) blkno
  if write then
    sfs_wbuf (env.dop_io blkno .dataRead) (env.dop_io blkno .dataWrite) (buf.take size) ino blkoff
    pure (buf.take size)
  else sfs_rbuf (env.dop_io blkno .dataRead) size ino blkoff

/-- One block with `sfs_block_op`. -/
def io_whole (env : Around) (write : Bool) (buf : List Byte) (blkno : Nat) :
    SfsM (List Byte) := do
  let ino ← sfs_bmap_load_nolock (env.dop_io blkno) (env.ino blkno) blkno
  if write then
    sfs_wblock (env.dop_io blkno .dataWrite) (buf.take SFS_BLKSIZE) ino
    pure (buf.take SFS_BLKSIZE)
  else sfs_rblock (env.dop_io blkno .dataRead) ino

/-- The last part, from the start of block `blkno`. `done` went through before; what is returned
is `ret` with all that went through. -/
def io_tail (env : Around) (write : Bool) (buf : List Byte) (blkno endpos : Nat)
    (done : List Byte) : SfsM (Int × List Byte) := do
  let size := endpos % SFS_BLKSIZE
  if size ≠ 0 then
    match ← attempt (io_part env write buf blkno 0 size) with
    | .ok bs => pure (0, done ++ bs)
    | .error ret => pure (ret, done)
  else pure (0, done)

/-- The loop over whole blocks. -/
def io_blocks (env : Around) (write : Bool) (endpos : Nat) :
    Nat → List Byte → Nat → List Byte → SfsM (Int × List Byte)
  | 0, buf, blkno, done => io_tail env write buf blkno endpos done
  | nblks + 1, buf, blkno, done => do
    match ← attempt (io_whole env write buf blkno) with
    | .ok bs => io_blocks env write endpos nblks (buf.drop SFS_BLKSIZE) (blkno + 1) (done ++ bs)
    | .error ret => pure (ret, done)

/-- The parts between the checks and `out`. -/
def io_body (env : Around) (write : Bool) (buf : List Byte) (offset endpos : Nat) :
    SfsM (Int × List Byte) := do
  let blkno := offset / SFS_BLKSIZE
  let nblks := endpos / SFS_BLKSIZE - blkno
  let blkoff := offset % SFS_BLKSIZE
  if blkoff ≠ 0 then
    let size := if nblks ≠ 0 then SFS_BLKSIZE - blkoff else endpos - offset
    match ← attempt (io_part env write buf blkno blkoff size) with
    | .ok bs =>
      if nblks = 0 then pure (0, bs)
      else io_blocks env write endpos (nblks - 1) (buf.drop size) (blkno + 1) bs
    | .error ret => pure (ret, [])
  else io_blocks env write endpos nblks buf blkno []

/-- The sum in the 32 bits of `off_t`. -/
def off_add (offset : Int) (len : Nat) : Int := (offset + len).bmod (2 ^ 32)

/-- Where the transfer ends, or what it returns at once. -/
def io_end (size : Nat) (offset : Int) (len : Nat) (write : Bool) : Except Int Nat :=
  let endpos := off_add offset len
  if offset < 0 ∨ (SFS_MAX_FILE_SIZE : Int) ≤ offset ∨ endpos < offset then .error (-E_INVAL)
  else if offset = endpos then .error 0
  else
    let endpos := min endpos.toNat SFS_MAX_FILE_SIZE
    if write then .ok endpos
    else if size ≤ offset.toNat then .error 0
    else .ok (min endpos size)

/-- Returns `ret` and the bytes that went through, whose number is `*alenp`. For a write `buf` holds
the `len` bytes. -/
def sfs_io_nolock (env : Around) (buf : List Byte) (offset : Int) (len : Nat) (write : Bool) :
    SfsM (Int × List Byte) := do
  let din := (← get).sin.din
  check (din.type ≠ SFS_TYPE_DIR)
  match io_end din.size offset len write with
  | .error ret => pure (ret, [])
  | .ok endpos => do
    let (ret, done) ← io_body env write buf offset.toNat endpos
    let size := (← get).sin.din.size
    if size < offset.toNat + done.length then modify (set_size (offset.toNat + done.length))
    else pure ()
    pure (ret, done)

/-! ## Truncation -/

def sfs_grow (env : Around) (nblks n : Nat) : SfsM Unit :=
  countUp (fun index => do
    let _ ← sfs_bmap_load_nolock (env.dop_io index) (env.ino index) index
    pure ()) nblks n

def sfs_shrink (env : Around) (n : Nat) : SfsM Unit :=
  countUp (fun _ => sfs_bmap_truncate_nolock env.dop_io) 0 n

def roundup_div (len : Nat) : Nat := (len + (SFS_BLKSIZE - 1)) >>> SFS_BLKSIZE_SHIFT

def sfs_truncfile (env : Around) (len : Int) : SfsM Unit := do
  if len < 0 ∨ (SFS_MAX_FILE_SIZE : Int) < len then throw (-E_INVAL)
  else
    let din := (← get).sin.din
    let tblks := roundup_div len.toNat
    if din.size = len.toNat then check (tblks = din.blocks)
    else
      if din.blocks < tblks then sfs_grow env din.blocks (tblks - din.blocks)
      else sfs_shrink env (din.blocks - tblks)
      check ((← get).sin.din.blocks = tblks)
      modify (set_size len.toNat)

def sfs_tryseek (env : Around) (pos : Int) : SfsM Unit := do
  if pos < 0 ∨ (SFS_MAX_FILE_SIZE : Int) ≤ pos then throw (-E_INVAL)
  else if ((← get).sin.din.size : Int) < pos then sfs_truncfile env pos
  else pure ()

/-! ## The calls on a file -/

inductive FileOp where
  | read (offset : Int) (len : Nat)
  | write (offset : Int) (data : List Byte)
  | truncate (len : Int)
  | tryseek (pos : Int)

/-- What a call returns, with the bytes that it moved. -/
def FileOp.run (env : Around) : FileOp → SfsM (Int × List Byte)
  | .read offset len => sfs_io_nolock env [] offset len false
  | .write offset data => sfs_io_nolock env data offset data.length true
  | .truncate len => do
    match ← attempt (sfs_truncfile env len) with
    | .ok _ => pure (0, [])
    | .error ret => pure (ret, [])
  | .tryseek pos => do
    match ← attempt (sfs_tryseek env pos) with
    | .ok _ => pure (0, [])
    | .error ret => pure (ret, [])

end nehcpu.kernel.fs
