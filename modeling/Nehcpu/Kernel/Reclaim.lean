-- The inodes that are in memory: `sfs_load_inode`, the count of the references and `sfs_reclaim`, cut
-- into pieces where a process waits for a lock or for the disk.
import Mathlib.Logic.Function.Basic
import Nehcpu.Cpu.Defines
import Nehcpu.Kernel.Sfs
import Nehcpu.Lib.Calls
import Nehcpu.Lib.Fallible

namespace nehcpu.kernel.reclaim

open Function nehcpu.kernel.fs
open cpu hiding Except

/-! ## The data -/

abbrev Addr := Nat

/-- A mounted file system. -/
abbrev Fs := Nat

/-- The fields of `struct inode` and `struct sfs_inode` that the protocol uses. -/
structure sfs_inode where
  in_fs : Fs
  ino : Word
  din : sfs_disk_inode
  dirty : Bool
  reclaim_count : Nat
  ref_count : Nat

/-- A call that waits, or that sleeps with the lock of its file system. -/
inductive Call
  /-- `sfs_load_inode` at the lock, and in the read of the inode -/
  | loadLock (sfs : Fs) (ino : Word)
  | loadRead (sfs : Fs) (ino : Word)
  /-- `sfs_reclaim` at the lock, in `vop_truncate` and in `vop_fsync` -/
  | reclaimLock (sfs : Fs) (node : Addr)
  | reclaimTruncate (sfs : Fs) (node : Addr)
  | reclaimFsync (sfs : Fs) (node : Addr)
  /-- `sfs_fsync` of a process that has a reference -/
  | fsync (node : Addr)
deriving DecidableEq, Repr

/-- The call holds the lock. -/
def Call.inside (sfs : Fs) : Call → Bool
  | .loadRead sfs' _ => sfs' = sfs
  | .reclaimTruncate sfs' _ => sfs' = sfs
  | .reclaimFsync sfs' _ => sfs' = sfs
  | _ => false

/-- What has happened, for the proofs only: an inode is made, and it is destroyed, with what it was
and what the disk had then. -/
inductive Obs
  | created (node : Addr)
  | destroyed (node : Addr) (sin : sfs_inode) (disk : sfs_disk_inode)

/-- `refs` counts the references that processes hold and may use, and `kept` marks the inodes whose
last reclaim failed; both are for the proofs only. -/
structure Sys where
  mem : Addr → Option sfs_inode
  inode_list : Fs → List Addr
  hash_list : Fs → Nat → List Addr
  fs_sem : Fs → Bool
  disk : Fs → Word → sfs_disk_inode
  calls : List Call
  refs : Addr → Nat
  kept : Addr → Bool
  log : List Obs

/-- Nothing is in memory yet. -/
def boot (disk : Fs → Word → sfs_disk_inode) : Sys where
  mem := fun _ => none
  inode_list := fun _ => []
  hash_list := fun _ _ => []
  fs_sem := fun _ => false
  disk := disk
  calls := []
  refs := fun _ => 0
  kept := fun _ => false
  log := []

/-- What stops the kernel: the use of an inode that is gone, or an assertion. -/
inductive Failed
  | dangling
  | ref_count
  | reclaim_count
  | kill
  | nlinks
deriving DecidableEq, Repr

def Sys.node (s : Sys) (node : Addr) : Except Failed sfs_inode :=
  match s.mem node with
  | some sin => .ok sin
  | none => .error .dangling

def Sys.setNode (s : Sys) (node : Addr) (sin : sfs_inode) : Sys :=
  { s with mem := update s.mem node (some sin) }

/-- The call `c` goes on as `new`. -/
def Sys.goOn (s : Sys) (c : Call) (new : List Call) : Sys := { s with calls := calls.goOn s.calls c new }

def Sys.setSem (s : Sys) (sfs : Fs) (b : Bool) : Sys := { s with fs_sem := update s.fs_sem sfs b }

def Sys.setRefs (s : Sys) (node : Addr) (n : Nat) : Sys := { s with refs := update s.refs node n }

def Sys.setKept (s : Sys) (node : Addr) (b : Bool) : Sys := { s with kept := update s.kept node b }

/-! ## The lists -/

abbrev GOLDEN_RATIO_PRIME_32 : Word := 0x9e370001#32

abbrev SFS_HLIST_SHIFT : Nat := 10

def hash32 (val : Word) (bits : Nat) : Nat := ((val * GOLDEN_RATIO_PRIME_32) >>> (32 - bits)).toNat

def sin_hashfn (ino : Word) : Nat := hash32 ino SFS_HLIST_SHIFT

def sfs_set_links (s : Sys) (sfs : Fs) (node : Addr) (sin : sfs_inode) : Sys :=
  let h := sin_hashfn sin.ino
  { s with
    inode_list := update s.inode_list sfs (node :: s.inode_list sfs)
    hash_list := update s.hash_list sfs (update (s.hash_list sfs) h (node :: s.hash_list sfs h)) }

def sfs_remove_links (s : Sys) (sfs : Fs) (node : Addr) (sin : sfs_inode) : Sys :=
  let h := sin_hashfn sin.ino
  { s with
    inode_list := update s.inode_list sfs ((s.inode_list sfs).erase node)
    hash_list := update s.hash_list sfs
      (update (s.hash_list sfs) h ((s.hash_list sfs h).erase node)) }

/-- The walk of `lookup_sfs_nolock` along a hash list. -/
def findIno (s : Sys) (ino : Word) : List Addr → Except Failed (Option Addr)
  | [] => .ok none
  | node :: rest => do
    let sin ← s.node node
    if sin.ino = ino then pure (some node) else findIno s ino rest

/-! ## References -/

/-- `inode_ref_inc`, which returns the new count. -/
def inode_ref_inc (s : Sys) (node : Addr) : Except Failed (Nat × Sys) := do
  let sin ← s.node node
  pure (sin.ref_count + 1, s.setNode node { sin with ref_count := sin.ref_count + 1 })

/-- What `lookup_sfs_nolock` does with the inode that it found. The caller gets a reference. -/
def revive (s : Sys) (node : Addr) : Except Failed Sys := do
  let (n, s) ← inode_ref_inc s node
  let sin ← s.node node
  let s := if n = 1 then s.setNode node { sin with reclaim_count := sin.reclaim_count + 1 } else s
  pure ((s.setRefs node (s.refs node + 1)).setKept node false)

/-- `inode_ref_dec` up to the lock in `sfs_reclaim`. -/
def inode_ref_dec (s : Sys) (node : Addr) : Except Failed Sys := do
  let sin ← s.node node
  if sin.ref_count = 0 then .error .ref_count
  else
    let s := (s.setNode node { sin with ref_count := sin.ref_count - 1 }).setRefs node
      (s.refs node - 1)
    pure (if sin.ref_count - 1 = 0 then
      { s with calls := .reclaimLock sin.in_fs node :: s.calls } else s)

/-! ## `sfs_load_inode` -/

/-- From the lock to the read, or to the end. `memory` says that `kmalloc` has room. -/
def loadLocked (s : Sys) (sfs : Fs) (ino : Word) (memory : Bool) : Except Failed Sys := do
  let c := Call.loadLock sfs ino
  match ← findIno s ino (s.hash_list sfs (sin_hashfn ino)) with
  | some node => revive (s.goOn c []) node
  | none =>
    pure (if memory then (s.goOn c [.loadRead sfs ino]).setSem sfs true else s.goOn c [])

/-- From the read to the end. `result` is the place of the new inode, and nothing after a failure. -/
def loadDone (s : Sys) (sfs : Fs) (ino : Word) (result : Option Addr) : Except Failed Sys :=
  let s := (s.goOn (.loadRead sfs ino) []).setSem sfs false
  match result with
  | none => .ok s
  | some node =>
    let din := s.disk sfs ino
    if din.nlinks = 0 then .error .nlinks
    else
      let sin : sfs_inode := ⟨sfs, ino, din, false, 1, 1⟩
      let s := sfs_set_links (s.setNode node sin) sfs node sin
      .ok { (s.setRefs node (s.refs node + 1)).setKept node false with
        log := s.log ++ [.created node] }

/-! ## `sfs_reclaim` -/

/-- The way out at `failed_unlock` with an error, where the call `c` ends. -/
def failedUnlock (s : Sys) (sfs : Fs) (node : Addr) (c : Call) : Sys :=
  ((s.goOn c []).setSem sfs false).setKept node true

/-- From `sfs_remove_links` to `vop_kill`, with which the call `c` ends. Nothing in between waits. -/
def reclaimKill (s : Sys) (sfs : Fs) (node : Addr) (c : Call) : Except Failed Sys := do
  let sin ← s.node node
  if sin.ref_count ≠ 0 then .error .kill
  else
    let s := ((sfs_remove_links s sfs node sin).goOn c []).setSem sfs false
    pure { s with
      mem := update s.mem node none
      log := s.log ++ [.destroyed node sin (s.disk sfs sin.ino)] }

/-- The part behind `vop_truncate`, up to the write in `sfs_fsync`. The inode has its own lock, and
only a process with a reference ever holds it. -/
def reclaimFlush (s : Sys) (sfs : Fs) (node : Addr) (c : Call) : Except Failed Sys := do
  let sin ← s.node node
  if sin.dirty then
    pure (((s.setNode node { sin with dirty := false }).goOn c
      [.reclaimFsync sfs node]).setSem sfs true)
  else reclaimKill s sfs node c

/-- From the lock up to the first wait. -/
def reclaimLocked (s : Sys) (sfs : Fs) (node : Addr) : Except Failed Sys := do
  let c := Call.reclaimLock sfs node
  let sin ← s.node node
  let s := s.setNode node { sin with reclaim_count := sin.reclaim_count - 1 }
  if sin.reclaim_count = 0 then .error .reclaim_count
  else if sin.reclaim_count - 1 ≠ 0 ∨ sin.ref_count ≠ 0 then pure (s.goOn c [])
  else if sin.din.nlinks = 0 then
    pure ((s.goOn c [.reclaimTruncate sfs node]).setSem sfs true)
  else reclaimFlush s sfs node c

/-- A change of the inode, which marks it. -/
def Sys.changed (s : Sys) (node : Addr) (din : Option sfs_disk_inode) : Except Failed Sys := do
  let sin ← s.node node
  pure (match din with
    | some din => s.setNode node { sin with din := din, dirty := true }
    | none => s)

/-- The end of `vop_truncate`, which has changed the inode or not and went well or not. -/
def truncateDone (s : Sys) (sfs : Fs) (node : Addr) (din : Option sfs_disk_inode) (ok : Bool) :
    Except Failed Sys := do
  let c := Call.reclaimTruncate sfs node
  let s ← s.changed node din
  if ok then reclaimFlush s sfs node c else pure (failedUnlock s sfs node c)

/-! ## `sfs_fsync` -/

/-- The write of the inode went well or not. -/
def written (s : Sys) (node : Addr) (ok : Bool) : Except Failed Sys := do
  let sin ← s.node node
  pure (if ok then
      { s with disk := update s.disk sin.in_fs (update (s.disk sin.in_fs) sin.ino sin.din) }
    else s.setNode node { sin with dirty := true })

/-- The end of `vop_fsync` in `sfs_reclaim`. -/
def reclaimFsyncDone (s : Sys) (sfs : Fs) (node : Addr) (ok : Bool) : Except Failed Sys := do
  let c := Call.reclaimFsync sfs node
  let s ← written s node ok
  if ok then reclaimKill s sfs node c else pure (failedUnlock s sfs node c)

/-- `sfs_fsync` of a process with a reference, up to the write. The reference stays with the call. -/
def sfs_fsync (s : Sys) (node : Addr) : Except Failed Sys := do
  let sin ← s.node node
  pure (if sin.dirty then
      let s := (s.setNode node { sin with dirty := false }).setRefs node (s.refs node - 1)
      { s with calls := .fsync node :: s.calls }
    else s)

def fsyncDone (s : Sys) (node : Addr) (ok : Bool) : Except Failed Sys := do
  let s ← written s node ok
  pure ((s.goOn (.fsync node) []).setRefs node (s.refs node + 1))

/-! ## Steps -/

/-- What happens next, with what the disk and the allocator answer. -/
inductive Event
  | sfs_load_inode (sfs : Fs) (ino : Word)
  | loadLocked (sfs : Fs) (ino : Word) (memory : Bool)
  | loadDone (sfs : Fs) (ino : Word) (result : Option Addr)
  | inode_ref_inc (node : Addr)
  | inode_ref_dec (node : Addr)
  | reclaimLocked (sfs : Fs) (node : Addr)
  | truncateDone (sfs : Fs) (node : Addr) (din : Option sfs_disk_inode) (ok : Bool)
  | reclaimFsyncDone (sfs : Fs) (node : Addr) (ok : Bool)
  | change (node : Addr) (din : sfs_disk_inode)
  | sfs_fsync (node : Addr)
  | fsyncDone (node : Addr) (ok : Bool)

def Event.step (s : Sys) : Event → Except Failed Sys
  | .sfs_load_inode sfs ino => .ok { s with calls := .loadLock sfs ino :: s.calls }
  | .loadLocked sfs ino memory => reclaim.loadLocked s sfs ino memory
  | .loadDone sfs ino result => reclaim.loadDone s sfs ino result
  | .inode_ref_inc node => do
    let (_, s) ← reclaim.inode_ref_inc s node
    pure (s.setRefs node (s.refs node + 1))
  | .inode_ref_dec node => reclaim.inode_ref_dec s node
  | .reclaimLocked sfs node => reclaim.reclaimLocked s sfs node
  | .truncateDone sfs node din ok => reclaim.truncateDone s sfs node din ok
  | .reclaimFsyncDone sfs node ok => reclaim.reclaimFsyncDone s sfs node ok
  | .change node din => s.changed node (some din)
  | .sfs_fsync node => reclaim.sfs_fsync s node
  | .fsyncDone node ok => reclaim.fsyncDone s node ok

/-- The event can come now: a call takes a lock that is free, a process uses a reference that it has,
`kmalloc` gives memory that is not in use, and the lock of an inode keeps changes and writes of it
apart. -/
def Event.Allowed (s : Sys) : Event → Prop
  | .sfs_load_inode _ _ => True
  | .loadLocked sfs ino _ => .loadLock sfs ino ∈ s.calls ∧ s.fs_sem sfs = false
  | .loadDone sfs ino result =>
    .loadRead sfs ino ∈ s.calls ∧ ∀ node ∈ result, s.mem node = none
  | .inode_ref_inc node => 0 < s.refs node
  | .inode_ref_dec node => 0 < s.refs node
  | .reclaimLocked sfs node => .reclaimLock sfs node ∈ s.calls ∧ s.fs_sem sfs = false
  | .truncateDone sfs node _ _ => .reclaimTruncate sfs node ∈ s.calls
  | .reclaimFsyncDone sfs node _ => .reclaimFsync sfs node ∈ s.calls
  | .change node _ => 0 < s.refs node ∧ .fsync node ∉ s.calls
  | .sfs_fsync node => 0 < s.refs node ∧ .fsync node ∉ s.calls
  | .fsyncDone node _ => .fsync node ∈ s.calls

instance (s : Sys) (e : Event) : Decidable (e.Allowed s) := by
  cases e <;> unfold Event.Allowed <;> infer_instance

end nehcpu.kernel.reclaim
