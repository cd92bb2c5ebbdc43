-- The image that `tools/mksfs.c` makes of a file system, and the mount of `sfs_fs.c` that checks
-- it: the bitmap of the free blocks, as the tool writes it and as the kernel reads it.
import Mathlib.Tactic.Ring
import Nehcpu.Kernel.SfsBlocks

namespace nehcpu.kernel.fs

open Function nehcpu.buffer

/-! ## The tool -/

def SFS_MAGIC : Nat := 0x2f8dbe2a

def E_NA_DEV : Int := 14

def SFS_MAX_NBLKS : Nat := 1024 * 512

def SFS_BLKN_ROOT : Nat := 1

def SFS_BLKBITS : Nat := SFS_BLKSIZE * 8

/-- `struct sfs_fs` of the tool: the super block without its text, the blocks of the image, and the
blocks and inodes that are kept until the image is closed. -/
structure Img where
  super : sfs_super
  ninos : Nat
  next_ino : Nat
  image : Nat → Buffer
  caches : List (Nat × Buffer)

/-- The number of blocks, in 32 bits before it is compared. -/
def img_ninos (st_size : Nat) : Nat :=
  let ninos := st_size / SFS_BLKSIZE % 2 ^ 32
  if ninos > SFS_MAX_NBLKS then SFS_MAX_NBLKS else ninos

/-- `create_sfs`, which may find the image too small. `disk` is what the file has. -/
def create_sfs (st_size : Nat) (disk : Nat → Buffer) : Option Img :=
  let ninos := img_ninos st_size
  let next_ino := SFS_BLKN_FREEMAP + (ninos + SFS_BLKBITS - 1) / SFS_BLKBITS
  if next_ino ≥ ninos then none
  else some ⟨⟨ninos, ninos - next_ino⟩, ninos, next_ino, disk, [(SFS_BLKN_ROOT, Buffer.zero)]⟩

def sfs_alloc_ino (sfs : Img) : Option (Nat × Img) :=
  if sfs.next_ino < sfs.ninos then
    some (sfs.next_ino, { sfs with
      super := { sfs.super with unused_blocks := sfs.super.unused_blocks - 1 }
      next_ino := sfs.next_ino + 1 })
  else none

def write_block (sfs : Img) (data : List Byte) (ino : Nat) : Option Img :=
  if data.length ≤ SFS_BLKSIZE ∧ ino < sfs.ninos then
    some { sfs with image := update sfs.image ino (patch Buffer.zero 0 data) }
  else none

/-- What `mksfs` does between `create_sfs` and `close_sfs`. -/
inductive MkOp
  /-- A block of a file, written at once. -/
  | add_block (data : List Byte)
  /-- `alloc_cache_block` and `alloc_cache_inode` -/
  | alloc_cache
  /-- A change of a block or an inode that is kept. -/
  | edit (i : Nat) (data : Buffer)

/-- One operation, with the block that it allocates. -/
def MkOp.step (sfs : Img) : MkOp → Option (Option Nat × Img)
  | .add_block data =>
    (sfs_alloc_ino sfs).bind fun (ino, sfs) =>
      (write_block sfs data ino).map fun sfs => (some ino, sfs)
  | .alloc_cache =>
    (sfs_alloc_ino sfs).map fun (ino, sfs) =>
      (some ino, { sfs with caches := (ino, Buffer.zero) :: sfs.caches })
  | .edit i data =>
    some (none, { sfs with caches := sfs.caches.modify i fun cb => (cb.1, data) })

/-- The operations, with the blocks that they allocate. -/
def mkRun : Img → List MkOp → Option (List Nat × Img)
  | sfs, [] => some ([], sfs)
  | sfs, op :: ops =>
    (op.step sfs).bind fun (ino, sfs) =>
      (mkRun sfs ops).map fun (inos, sfs) => (ino.toList ++ inos, sfs)

/-- `data[j / bits] |= (1 << (j % bits))` -/
def orBit (data : Buffer) (j : Nat) : Buffer :=
  let word := BitVec.ofNat 32 (leAt 4 data (4 * (j / WORD_BITS)))
  patch data (4 * (j / WORD_BITS)) (leBytes 4 (word ||| mask (j % WORD_BITS)).toNat)

/-- The loop over `j`. -/
def orBits (start stop : Nat) : Buffer :=
  (List.range' start (stop - start)).foldl orBit Buffer.zero

/-- The block of the bitmap for the blocks from `i` on. -/
def freemapBlock (ninos next_ino i : Nat) : Buffer :=
  if i + SFS_BLKBITS > next_ino then
    let start := if i < next_ino then next_ino - i else 0
    let stop := if i + SFS_BLKBITS > ninos then ninos - i else SFS_BLKBITS
    orBits start stop
  else Buffer.zero

/-- The loop over `i`. -/
def writeFreemap (ninos next_ino : Nat) (sfs : Img) (ino i : Nat) : Option Img :=
  if i < ninos then
    (write_block sfs (slice (freemapBlock ninos next_ino i) 0 SFS_BLKSIZE) ino).bind fun sfs =>
      writeFreemap ninos next_ino sfs (ino + 1) (i + SFS_BLKBITS)
  else some sfs
termination_by ninos - i
decreasing_by
  have hpos : 0 < SFS_BLKBITS := by decide
  omega

def superBytes (super : sfs_super) : List Byte :=
  leBytes 4 SFS_MAGIC ++ leBytes 4 super.blocks ++ leBytes 4 super.unused_blocks

/-- `flush_cache_block` and `flush_cache_inode` -/
def flushCaches (sfs : Img) : List (Nat × Buffer) → Option Img
  | [] => some sfs
  | (ino, data) :: caches =>
    (write_block sfs (slice data 0 SFS_BLKSIZE) ino).bind fun sfs => flushCaches sfs caches

def close_sfs (sfs : Img) : Option Img :=
  (writeFreemap sfs.ninos sfs.next_ino sfs SFS_BLKN_FREEMAP 0).bind fun sfs =>
    (write_block sfs (superBytes sfs.super) SFS_BLKN_SUPER).bind fun sfs =>
      flushCaches sfs sfs.caches

/-! ## The mount -/

/-- The disk device. `dop_io` refuses what lies beyond its end. -/
structure Device where
  d_blocks : Nat
  d_blocksize : Nat
  disk : Nat → Buffer

/-- Whether `alloc_fs` and the calls of `kmalloc` get their memory. -/
structure MountMem where
  alloc_fs : Bool
  sfs_buffer : Bool
  hash_list : Bool
  bitmap : Bool
  map : Bool

def roundup_2n (a n : Nat) : Nat := (a + 2 ^ n - 1) % 2 ^ 32 / 2 ^ n * 2 ^ n

def roundup_div_2n (a n : Nat) : Nat := (a + 2 ^ n - 1) % 2 ^ 32 / 2 ^ n

def sfs_init_read (dev : Device) (blkno : Nat) : Except Int Buffer :=
  if blkno + 1 > dev.d_blocks then .error (-E_INVAL) else .ok (dev.disk blkno)

/-- The part of `bitmap_create` for the bits behind the last: a bitmap for blocks has none. -/
def leftover (nbits nwords : Nat) (map : Nat → BitVec 32) : Nat → BitVec 32 :=
  let ix := nwords - 1
  (List.range' (nbits - ix * WORD_BITS) (nwords * WORD_BITS - nbits)).foldl
    (fun map overbits => update map ix (map ix ^^^ mask overbits)) map

/-- `bitmap_create`, where an assertion may fail. -/
def bitmap_create (mem : MountMem) (nbits : Nat) : Option (Option bitmap) :=
  if nbits ≠ 0 ∧ (nbits + WORD_BITS) % 2 ^ 32 > nbits then
    if mem.bitmap = false ∨ mem.map = false then some none
    else
      let nwords := roundup_div_2n nbits 5
      let map : Nat → BitVec 32 := fun _ => 0xFFFFFFFF#32
      some (some ⟨nbits, nwords,
        if nbits ≠ nwords * WORD_BITS then leftover nbits nwords map else map⟩)
  else none

/-- The loop of `sfs_init_freemap`: `data` is `ix` words into the map. -/
def initFreemap (dev : Device) (blkno ix : Nat) : Nat → (Nat → BitVec 32) →
    Except Int (Nat → BitVec 32)
  | 0, map => .ok map
  | nblks + 1, map =>
    match sfs_init_read dev blkno with
    | .error ret => .error ret
    | .ok buf =>
      initFreemap dev (blkno + 1) (ix + SFS_BLK_NENTRY) nblks fun w =>
        if ix ≤ w ∧ w < ix + SFS_BLK_NENTRY then BitVec.ofNat 32 (leAt 4 buf (4 * (w - ix)))
        else map w

/-- `sfs_init_freemap`, where an assertion may fail. -/
def sfs_init_freemap (dev : Device) (freemap : bitmap) (blkno nblks : Nat) :
    Option (Except Int bitmap) :=
  if 4 * freemap.nwords = nblks * SFS_BLKSIZE then
    some ((initFreemap dev blkno 0 nblks freemap.map).map fun map => { freemap with map := map })
  else none

/-- The count of the free blocks. -/
def countFree (bm : bitmap) : Nat :=
  (List.range bm.nbits).countP fun i =>
    (bm.map (i / WORD_BITS) &&& mask (i % WORD_BITS)) != 0#32

/-- `sfs_do_mount`, where an assertion may fail. -/
def sfs_do_mount (mem : MountMem) (dev : Device) : Option (Except Int sfs_fs) :=
  if dev.d_blocksize ≠ SFS_BLKSIZE then some (.error (-E_NA_DEV))
  else if mem.alloc_fs = false ∨ mem.sfs_buffer = false then some (.error (-E_NO_MEM))
  else
    match sfs_init_read dev SFS_BLKN_SUPER with
    | .error ret => some (.error ret)
    | .ok buf =>
      let super : sfs_super := ⟨leAt 4 buf 4, leAt 4 buf 8⟩
      if leAt 4 buf 0 ≠ SFS_MAGIC then some (.error (-E_INVAL))
      else if super.blocks > dev.d_blocks then some (.error (-E_INVAL))
      else if mem.hash_list = false then some (.error (-E_NO_MEM))
      else
        match bitmap_create mem (roundup_2n super.blocks SFS_BLKBITS_SHIFT) with
        | none => none
        | some none => some (.error (-E_NO_MEM))
        | some (some freemap) =>
          match sfs_init_freemap dev freemap SFS_BLKN_FREEMAP
              (roundup_div_2n super.blocks SFS_BLKBITS_SHIFT) with
          | none => none
          | some (.error ret) => some (.error ret)
          | some (.ok freemap) =>
            if countFree freemap = super.unused_blocks then
              some (.ok ⟨super, false, freemap, dev.disk⟩)
            else none

/-! ## The bits of a block -/

def blockBit (b : Buffer) (j : Nat) : Bool :=
  (BitVec.ofNat 32 (leAt 4 b (4 * (j / WORD_BITS)))).getLsbD (j % WORD_BITS)

theorem blockBit_zero (j : Nat) : blockBit Buffer.zero j = false := by
  unfold blockBit
  rw [leAt_zero, BitVec.getLsbD_ofNat, Nat.zero_testBit, Bool.and_false]

theorem blockBit_orBit (data : Buffer) (j k : Nat) :
    blockBit (orBit data j) k = (blockBit data k || decide (k = j)) := by
  unfold blockBit orBit
  by_cases hw : k / WORD_BITS = j / WORD_BITS
  · have hpow : 256 ^ 4 = 2 ^ 32 := by norm_num
    rw [hw, leAt_patch, hpow, Nat.mod_eq_of_lt (BitVec.isLt _), BitVec.ofNat_toNat, BitVec.setWidth_eq,
      BitVec.getLsbD_or, mask_getLsbD (word_bits_pos j)]
    have hk : k % WORD_BITS = j % WORD_BITS ↔ k = j := by
      unfold WORD_BITS at *
      omega
    rw [decide_eq_decide.2 hk]
  · rw [leAt_patch_of_apart]
    · have hk : k ≠ j := fun he => hw (by rw [he])
      rw [decide_eq_false hk, Bool.or_false]
    · rw [leBytes_length]
      omega

theorem blockBit_orBits (start stop k : Nat) :
    blockBit (orBits start stop) k = decide (start ≤ k ∧ k < stop) := by
  have hfold (l : List Nat) (data : Buffer) :
      blockBit (l.foldl orBit data) k = (blockBit data k || decide (k ∈ l)) := by
    induction l generalizing data with
    | nil => simp
    | cons j l ih =>
      rw [List.foldl_cons, ih, blockBit_orBit, Bool.or_assoc, ← Bool.decide_or]
      exact congrArg _ (decide_eq_decide.2 List.mem_cons.symm)
  unfold orBits
  rw [hfold, blockBit_zero, Bool.false_or, decide_eq_decide, List.mem_range'_1]
  omega

theorem blockBit_freemapBlock (ninos next_ino i k : Nat) (hk : k < SFS_BLKBITS) :
    blockBit (freemapBlock ninos next_ino i) k =
      decide (next_ino ≤ i + k ∧ i + k < ninos) := by
  unfold freemapBlock
  split
  · next hlt =>
    rw [blockBit_orBits, decide_eq_decide]
    split <;> split <;> omega
  · next hge =>
    rw [blockBit_zero]
    exact (decide_eq_false (by omega)).symm

/-- What a block that is written shows of the buffer. -/
theorem blockBit_written (b : Buffer) {k : Nat} (hk : k < SFS_BLKBITS) :
    blockBit (patch Buffer.zero 0 (slice b 0 SFS_BLKSIZE)) k = blockBit b k := by
  unfold blockBit
  have hoff : 4 * (k / WORD_BITS) + 4 ≤ SFS_BLKSIZE := by
    unfold SFS_BLKBITS SFS_BLKSIZE WORD_BITS at *
    omega
  rw [leAt_congr]
  intro i _ hi
  rw [patch_in _ _ _ (Nat.zero_le i) (by rw [slice_length]; omega), slice_getD _ _ _ _ (by omega)]
  congr 1
  omega

/-! ## What the tool keeps -/

/-- The blocks behind the bitmap, from its first. -/
def freemapEnd (ninos : Nat) : Nat := SFS_BLKN_FREEMAP + (ninos + SFS_BLKBITS - 1) / SFS_BLKBITS

/-- The blocks from the end of the bitmap up to `next_ino` are the ones in use. -/
structure ImgOk (sfs : Img) : Prop where
  small : sfs.ninos ≤ SFS_MAX_NBLKS
  first : freemapEnd sfs.ninos ≤ sfs.next_ino
  last : sfs.next_ino ≤ sfs.ninos
  blocks : sfs.super.blocks = sfs.ninos
  unused : sfs.super.unused_blocks = sfs.ninos - sfs.next_ino
  caches : ∀ cb ∈ sfs.caches, cb.1 = SFS_BLKN_ROOT ∨
    freemapEnd sfs.ninos ≤ cb.1 ∧ cb.1 < sfs.next_ino

theorem ImgOk.create {st_size : Nat} {disk : Nat → Buffer} {sfs : Img}
    (h : create_sfs st_size disk = some sfs) : ImgOk sfs := by
  unfold create_sfs at h
  simp only at h
  split at h
  · cases h
  · next hlt =>
    obtain rfl := Option.some_inj.1 h
    refine ⟨?_, le_rfl, Nat.le_of_not_le hlt, rfl, rfl, ?_⟩
    · show img_ninos st_size ≤ SFS_MAX_NBLKS
      unfold img_ninos
      simp only
      split
      · exact le_rfl
      · next hle => exact Nat.le_of_not_lt hle
    · intro cb hcb
      rw [List.mem_singleton.1 hcb]
      exact Or.inl rfl

section

variable {sfs sfs' : Img}

/-- A block is allocated: the next one. -/
theorem ImgOk.alloc {ino : Nat} (h : ImgOk sfs) (ha : sfs_alloc_ino sfs = some (ino, sfs')) :
    ImgOk sfs' ∧ ino = sfs.next_ino ∧ sfs'.next_ino = sfs.next_ino + 1 ∧
      sfs'.ninos = sfs.ninos := by
  unfold sfs_alloc_ino at ha
  split at ha
  · next hlt =>
    obtain ⟨rfl, rfl⟩ := Prod.mk.inj (Option.some_inj.1 ha)
    refine ⟨⟨h.small, Nat.le_succ_of_le h.first, hlt, h.blocks, ?_, ?_⟩, rfl, rfl, rfl⟩
    · show sfs.super.unused_blocks - 1 = sfs.ninos - (sfs.next_ino + 1)
      rw [h.unused]
      omega
    · intro cb hcb
      exact (h.caches cb hcb).imp_right fun hc => ⟨hc.1, Nat.lt_succ_of_lt hc.2⟩
  · cases ha

theorem write_block_eq {data : List Byte} {ino : Nat} (hw : write_block sfs data ino = some sfs') :
    sfs' = { sfs with image := update sfs.image ino (patch Buffer.zero 0 data) } := by
  unfold write_block at hw
  split at hw
  · exact (Option.some_inj.1 hw).symm
  · cases hw

theorem ImgOk.step {ino : Option Nat} (h : ImgOk sfs) (op : MkOp)
    (hs : op.step sfs = some (ino, sfs')) :
    ImgOk sfs' ∧ sfs'.ninos = sfs.ninos ∧
      ino.toList = List.range' sfs.next_ino ino.toList.length ∧
      sfs'.next_ino = sfs.next_ino + ino.toList.length := by
  cases op with
  | add_block data =>
    obtain ⟨⟨ino', sfs1⟩, ha, hs⟩ := Option.bind_eq_some_iff.1 hs
    obtain ⟨sfs2, hw, hs⟩ := Option.map_eq_some_iff.1 hs
    obtain ⟨rfl, rfl⟩ := Prod.mk.inj hs
    obtain rfl := write_block_eq hw
    obtain ⟨hok, rfl, hnext, hn⟩ := h.alloc ha
    exact ⟨⟨hok.small, hok.first, hok.last, hok.blocks, hok.unused, hok.caches⟩, hn, rfl, hnext⟩
  | alloc_cache =>
    obtain ⟨⟨ino', sfs1⟩, ha, hs⟩ := Option.map_eq_some_iff.1 hs
    obtain ⟨rfl, rfl⟩ := Prod.mk.inj hs
    obtain ⟨hok, rfl, hnext, hn⟩ := h.alloc ha
    refine ⟨⟨hok.small, hok.first, hok.last, hok.blocks, hok.unused, ?_⟩, hn, rfl, hnext⟩
    intro cb hcb
    rcases List.mem_cons.1 hcb with rfl | hcb
    · right
      show freemapEnd sfs1.ninos ≤ sfs.next_ino ∧ sfs.next_ino < sfs1.next_ino
      rw [hn, hnext]
      exact ⟨h.first, Nat.lt_succ_self _⟩
    · exact hok.caches cb hcb
  | edit i data =>
    obtain ⟨rfl, rfl⟩ := Prod.mk.inj (Option.some_inj.1 hs)
    refine ⟨⟨h.small, h.first, h.last, h.blocks, h.unused, ?_⟩, rfl, rfl, rfl⟩
    intro cb hcb
    obtain ⟨j, hj, rfl⟩ := List.mem_iff_getElem.1 hcb
    rw [List.getElem_modify]
    rw [List.length_modify] at hj
    have hold := h.caches _ (List.getElem_mem hj)
    split
    · exact hold
    · exact hold

/-- The blocks are allocated one after the other. -/
theorem ImgOk.run {inos : List Nat} (h : ImgOk sfs) (ops : List MkOp)
    (hr : mkRun sfs ops = some (inos, sfs')) :
    ImgOk sfs' ∧ sfs'.ninos = sfs.ninos ∧ inos = List.range' sfs.next_ino inos.length ∧
      sfs'.next_ino = sfs.next_ino + inos.length := by
  induction ops generalizing sfs inos with
  | nil =>
    obtain ⟨rfl, rfl⟩ := Prod.mk.inj (Option.some_inj.1 hr)
    exact ⟨h, rfl, rfl, rfl⟩
  | cons op ops ih =>
    obtain ⟨⟨ino, sfs1⟩, hs, hr⟩ := Option.bind_eq_some_iff.1 hr
    obtain ⟨⟨inos', sfs2⟩, hrest, hr⟩ := Option.map_eq_some_iff.1 hr
    obtain ⟨rfl, rfl⟩ := Prod.mk.inj hr
    obtain ⟨hok, hn, hino, hnext⟩ := h.step op hs
    obtain ⟨hok', hn', hinos, hnext'⟩ := ih hok hrest
    refine ⟨hok', hn'.trans hn, ?_, ?_⟩
    · rw [List.length_append, ← List.range'_append_1, ← hino, ← hnext, ← hinos]
    · rw [hnext', hnext, List.length_append, Nat.add_assoc]

end

/-! ## The image -/

/-- The image with the blocks of the bitmap from `ino` on, which are about the blocks from `i` on. -/
def withFreemap (ninos next_ino ino i : Nat) (image : Nat → Buffer) : Nat → Buffer := fun b =>
  if ino ≤ b ∧ i + (b - ino) * SFS_BLKBITS < ninos then
    patch Buffer.zero 0
      (slice (freemapBlock ninos next_ino (i + (b - ino) * SFS_BLKBITS)) 0 SFS_BLKSIZE)
  else image b

/-- One turn writes the first of the blocks. -/
theorem withFreemap_turn {ninos i : Nat} (next_ino ino : Nat) (image : Nat → Buffer)
    (hi : i < ninos) :
    withFreemap ninos next_ino (ino + 1) (i + SFS_BLKBITS)
        (update image ino
          (patch Buffer.zero 0 (slice (freemapBlock ninos next_ino i) 0 SFS_BLKSIZE))) =
      withFreemap ninos next_ino ino i image := by
  funext b
  unfold withFreemap
  rcases Nat.lt_trichotomy b ino with hb | rfl | hb
  · rw [if_neg (by omega), if_neg (by omega)]
    exact update_of_ne (Nat.ne_of_lt hb) _ _
  · rw [Nat.sub_self, Nat.zero_mul, Nat.add_zero, if_neg (by omega), if_pos ⟨le_rfl, hi⟩]
    exact update_self _ _ _
  · have hk : i + SFS_BLKBITS + (b - (ino + 1)) * SFS_BLKBITS = i + (b - ino) * SFS_BLKBITS := by
      obtain ⟨k, rfl⟩ : ∃ k, b = ino + 1 + k := Nat.exists_eq_add_of_le hb
      have hsub : ino + 1 + k - ino = k + 1 := by omega
      rw [Nat.add_sub_cancel_left, hsub]
      ring
    rw [hk, update_of_ne (Nat.ne_of_gt hb)]
    have hb' : ino + 1 ≤ b ↔ ino ≤ b := by omega
    simp only [hb']

/-- Each block of the bitmap has its place below the end of the file system. -/
theorem writeFreemap_eq (ninos next_ino : Nat) (sfs : Img) (ino i : Nat)
    (hfit : ∀ k, i + k * SFS_BLKBITS < ninos → ino + k < sfs.ninos) :
    writeFreemap ninos next_ino sfs ino i =
      some { sfs with image := withFreemap ninos next_ino ino i sfs.image } := by
  induction hm : ninos - i using Nat.strong_induction_on generalizing sfs ino i with
  | _ m ih =>
    have hpos : 0 < SFS_BLKBITS := by decide
    unfold writeFreemap
    by_cases hi : i < ninos
    · have hino : ino < sfs.ninos := hfit 0 (by rw [Nat.zero_mul]; exact hi)
      have hlen : (slice (freemapBlock ninos next_ino i) 0 SFS_BLKSIZE).length ≤ SFS_BLKSIZE := by
        rw [slice_length]
      unfold write_block
      rw [if_pos hi, if_pos ⟨hlen, hino⟩, Option.bind_some, ih _ (by omega) _ _ _ _ rfl]
      · rw [withFreemap_turn next_ino ino sfs.image hi]
      · intro k hk
        have hk' := hfit (k + 1) (by rw [Nat.add_mul, Nat.one_mul]; omega)
        show ino + 1 + k < sfs.ninos
        omega
    · have hnone : withFreemap ninos next_ino ino i sfs.image = sfs.image := by
        funext b
        unfold withFreemap
        exact if_neg (by omega)
      rw [if_neg hi, hnone]

theorem flushCaches_eq (sfs : Img) (caches : List (Nat × Buffer))
    (hfit : ∀ cb ∈ caches, cb.1 < sfs.ninos) :
    ∃ image, flushCaches sfs caches = some { sfs with image := image } ∧
      ∀ b, (∀ cb ∈ caches, cb.1 ≠ b) → image b = sfs.image b := by
  induction caches generalizing sfs with
  | nil => exact ⟨sfs.image, rfl, fun b _ => rfl⟩
  | cons cb caches ih =>
    obtain ⟨ino, data⟩ := cb
    have hino : ino < sfs.ninos := hfit (ino, data) List.mem_cons_self
    have hlen : (slice data 0 SFS_BLKSIZE).length ≤ SFS_BLKSIZE := by rw [slice_length]
    obtain ⟨image, hflush, hkept⟩ := ih { sfs with
        image := update sfs.image ino (patch Buffer.zero 0 (slice data 0 SFS_BLKSIZE)) }
      fun cb hcb => hfit cb (List.mem_cons_of_mem _ hcb)
    unfold flushCaches write_block
    rw [if_pos ⟨hlen, hino⟩, Option.bind_some]
    refine ⟨image, hflush, ?_⟩
    intro b hb
    rw [hkept b fun cb hcb => hb cb (List.mem_cons_of_mem _ hcb)]
    exact update_of_ne (hb (ino, data) List.mem_cons_self).symm _ _

theorem superBytes_length (super : sfs_super) : (superBytes super).length = 12 := by
  unfold superBytes
  simp

/-- The image that `close_sfs` leaves: the super block and the bitmap. -/
structure Closed (sfs : Img) (image : Nat → Buffer) : Prop where
  super : image SFS_BLKN_SUPER = patch Buffer.zero 0 (superBytes sfs.super)
  freemap : ∀ b, SFS_BLKN_FREEMAP ≤ b → b < freemapEnd sfs.ninos →
    image b = patch Buffer.zero 0
      (slice (freemapBlock sfs.ninos sfs.next_ino ((b - SFS_BLKN_FREEMAP) * SFS_BLKBITS)) 0
        SFS_BLKSIZE)

theorem two_le_freemapEnd (ninos : Nat) : 2 ≤ freemapEnd ninos := Nat.le_add_right _ _

theorem freemapEnd_fits {ninos k : Nat} (hk : k * SFS_BLKBITS < ninos) :
    SFS_BLKN_FREEMAP + k < freemapEnd ninos := by
  unfold freemapEnd SFS_BLKBITS SFS_BLKSIZE at *
  omega

theorem freemapEnd_covers {ninos k : Nat} (hk : SFS_BLKN_FREEMAP + k < freemapEnd ninos) :
    k * SFS_BLKBITS < ninos := by
  unfold freemapEnd SFS_BLKBITS SFS_BLKSIZE at *
  omega

theorem ImgOk.close {sfs : Img} (h : ImgOk sfs) :
    ∃ sfs', close_sfs sfs = some sfs' ∧ Closed sfs sfs'.image := by
  have hend : freemapEnd sfs.ninos ≤ sfs.ninos := le_trans h.first h.last
  have htwo := two_le_freemapEnd sfs.ninos
  have hsuper : SFS_BLKN_SUPER < sfs.ninos := by
    unfold SFS_BLKN_SUPER
    omega
  have hfit : ∀ k, 0 + k * SFS_BLKBITS < sfs.ninos → SFS_BLKN_FREEMAP + k < sfs.ninos := by
    intro k hk
    rw [Nat.zero_add] at hk
    exact Nat.lt_of_lt_of_le (freemapEnd_fits hk) hend
  have hcaches : ∀ cb ∈ sfs.caches, cb.1 < sfs.ninos := by
    intro cb hcb
    have hlast := h.last
    rcases h.caches cb hcb with hr | ⟨-, hlt⟩
    · rw [hr]
      unfold SFS_BLKN_ROOT
      omega
    · omega
  have hlen : (superBytes sfs.super).length ≤ SFS_BLKSIZE := by
    rw [superBytes_length]
    decide
  unfold close_sfs
  rw [writeFreemap_eq _ _ _ _ _ hfit, Option.bind_some]
  unfold write_block
  rw [if_pos ⟨hlen, hsuper⟩, Option.bind_some]
  obtain ⟨image, hflush, hkept⟩ := flushCaches_eq { sfs with
    image := update (withFreemap sfs.ninos sfs.next_ino SFS_BLKN_FREEMAP 0 sfs.image)
      SFS_BLKN_SUPER (patch Buffer.zero 0 (superBytes sfs.super)) } sfs.caches hcaches
  simp only at hkept
  refine ⟨_, hflush, ?_, ?_⟩
  · apply (hkept SFS_BLKN_SUPER ?_).trans (update_self _ _ _)
    intro cb hcb he
    rcases h.caches cb hcb with hr | ⟨hge, -⟩
    · rw [he] at hr
      cases hr
    · rw [he] at hge
      unfold SFS_BLKN_SUPER at hge
      omega
  · intro b hb hb'
    obtain ⟨k, rfl⟩ := Nat.exists_eq_add_of_le hb
    have hk := freemapEnd_covers hb'
    have hne : SFS_BLKN_FREEMAP + k ≠ SFS_BLKN_SUPER := by
      unfold SFS_BLKN_FREEMAP SFS_BLKN_SUPER
      omega
    apply (hkept (SFS_BLKN_FREEMAP + k) ?_).trans ((update_of_ne hne _ _).trans ?_)
    · intro cb hcb he
      rcases h.caches cb hcb with hr | ⟨hge, -⟩
      · rw [he] at hr
        unfold SFS_BLKN_FREEMAP SFS_BLKN_ROOT at hr
        omega
      · omega
    · unfold withFreemap
      rw [Nat.add_sub_cancel_left, Nat.zero_add, if_pos ⟨hb, hk⟩]

/-! ## What the kernel reads -/

/-- A bit of the bitmap on the disk. -/
def diskBit (disk : Nat → Buffer) (b : Nat) : Bool :=
  blockBit (disk (SFS_BLKN_FREEMAP + b / SFS_BLKBITS)) (b % SFS_BLKBITS)

/-- The number of blocks that the bitmap has. -/
def freemapBlocks (ninos : Nat) : Nat := (ninos + SFS_BLKBITS - 1) / SFS_BLKBITS

/-- Also the padding bits are those of blocks in use. -/
theorem Closed.diskBit {sfs : Img} {image : Nat → Buffer} (h : Closed sfs image) {b : Nat}
    (hb : b < freemapBlocks sfs.ninos * SFS_BLKBITS) :
    diskBit image b = decide (sfs.next_ino ≤ b ∧ b < sfs.ninos) := by
  have hpos : 0 < SFS_BLKBITS := by decide
  have hlt : b / SFS_BLKBITS < freemapBlocks sfs.ninos := (Nat.div_lt_iff_lt_mul hpos).2 hb
  have hmod : b % SFS_BLKBITS < SFS_BLKBITS := Nat.mod_lt b hpos
  unfold fs.diskBit
  rw [h.freemap _ (Nat.le_add_right _ _) (Nat.add_lt_add_left hlt _), blockBit_written _ hmod,
    Nat.add_sub_cancel_left, blockBit_freemapBlock _ _ _ _ hmod, Nat.div_add_mod']

/-- The map after the blocks of the bitmap were read into it. -/
theorem initFreemap_eq (dev : Device) (blkno ix nblks : Nat) (map : Nat → BitVec 32)
    (hfit : blkno + nblks ≤ dev.d_blocks) :
    ∃ map', initFreemap dev blkno ix nblks map = .ok map' ∧
      ∀ w, map' w =
        if ix ≤ w ∧ w < ix + nblks * SFS_BLK_NENTRY then
          BitVec.ofNat 32 (leAt 4 (dev.disk (blkno + (w - ix) / SFS_BLK_NENTRY))
            (4 * ((w - ix) % SFS_BLK_NENTRY)))
        else map w := by
  induction nblks generalizing blkno ix map with
  | zero =>
    refine ⟨map, rfl, ?_⟩
    intro w
    rw [Nat.zero_mul, Nat.add_zero, if_neg (by omega)]
  | succ nblks ih =>
    unfold initFreemap sfs_init_read
    rw [if_neg (by omega)]
    obtain ⟨map', hmap, hw⟩ := ih (blkno + 1) (ix + SFS_BLK_NENTRY) (fun w =>
      if ix ≤ w ∧ w < ix + SFS_BLK_NENTRY then
        BitVec.ofNat 32 (leAt 4 (dev.disk blkno) (4 * (w - ix)))
      else map w) (by omega)
    refine ⟨map', hmap, ?_⟩
    intro w
    rw [hw]
    unfold SFS_BLK_NENTRY at *
    by_cases h1 : ix + 1024 ≤ w
    · have hdiv : (w - ix) / 1024 = (w - (ix + 1024)) / 1024 + 1 := by omega
      have hmod : (w - ix) % 1024 = (w - (ix + 1024)) % 1024 := by omega
      have hblk : blkno + 1 + (w - (ix + 1024)) / 1024 = blkno + ((w - (ix + 1024)) / 1024 + 1) := by
        omega
      have hin : (ix + 1024 ≤ w ∧ w < ix + 1024 + nblks * 1024) ↔
          (ix ≤ w ∧ w < ix + (nblks + 1) * 1024) := by omega
      have hout : ¬ (ix ≤ w ∧ w < ix + 1024) := by omega
      rw [hdiv, hmod, hblk, if_congr hin rfl rfl, if_neg hout]
    · rw [if_neg (by omega)]
      by_cases h2 : ix ≤ w
      · have hdiv : (w - ix) / 1024 = 0 := by omega
        have hmod : (w - ix) % 1024 = w - ix := by omega
        rw [if_pos (by omega), if_pos (by omega), hdiv, hmod, Nat.add_zero]
      · rw [if_neg (by omega), if_neg (by omega)]

/-- The bitmap that the kernel has read shows the bits of the disk. -/
theorem read_bit {dev : Device} {bm : bitmap} {nblks : Nat}
    (hmap : ∀ w, w < nblks * SFS_BLK_NENTRY → bm.map w =
      BitVec.ofNat 32 (leAt 4 (dev.disk (SFS_BLKN_FREEMAP + w / SFS_BLK_NENTRY))
        (4 * (w % SFS_BLK_NENTRY))))
    {b : Nat} (hb : b < nblks * SFS_BLKBITS) : bm.bit b = diskBit dev.disk b := by
  unfold bitmap.bit diskBit blockBit
  unfold SFS_BLKBITS SFS_BLKSIZE SFS_BLK_NENTRY WORD_BITS at *
  have hblk : b / 32 / 1024 = b / (4096 * 8) := by omega
  have hword : b / 32 % 1024 = b % (4096 * 8) / 32 := by omega
  have hoff : b % 32 = b % (4096 * 8) % 32 := by omega
  rw [hmap _ (by omega), hblk, hword, hoff]

/-- As many as there are numbers between the two. -/
theorem countP_between (lo hi n : Nat) :
    (List.range n).countP (fun b => decide (lo ≤ b ∧ b < hi)) = min hi n - lo := by
  induction n with
  | zero => simp
  | succ n ih =>
    rw [List.range_succ, List.countP_append, ih, List.countP_singleton]
    split
    · next hin =>
      have hin := of_decide_eq_true hin
      omega
    · next hout =>
      have hout : ¬ (lo ≤ n ∧ n < hi) := fun hin => hout (decide_eq_true hin)
      omega

theorem Closed.count {sfs : Img} {image : Nat → Buffer} (h : Closed sfs image) :
    (List.range (freemapBlocks sfs.ninos * SFS_BLKBITS)).countP (fs.diskBit image) =
      sfs.ninos - sfs.next_ino := by
  have hmin : min sfs.ninos (freemapBlocks sfs.ninos * SFS_BLKBITS) = sfs.ninos := by
    apply Nat.min_eq_left
    unfold freemapBlocks SFS_BLKBITS SFS_BLKSIZE
    omega
  have hbetween := countP_between sfs.next_ino sfs.ninos (freemapBlocks sfs.ninos * SFS_BLKBITS)
  rw [hmin] at hbetween
  rw [← hbetween]
  apply List.countP_congr
  intro b hb
  rw [h.diskBit (List.mem_range.1 hb)]

theorem roundup_ninos {ninos : Nat} (h : ninos ≤ SFS_MAX_NBLKS) :
    roundup_div_2n ninos SFS_BLKBITS_SHIFT = freemapBlocks ninos ∧
      roundup_2n ninos SFS_BLKBITS_SHIFT = freemapBlocks ninos * SFS_BLKBITS ∧
      roundup_div_2n (freemapBlocks ninos * SFS_BLKBITS) 5 =
        freemapBlocks ninos * SFS_BLK_NENTRY ∧
      freemapBlocks ninos ≤ 16 := by
  unfold roundup_div_2n roundup_2n freemapBlocks SFS_BLKBITS_SHIFT SFS_BLKBITS SFS_BLKSIZE
    SFS_BLK_NENTRY SFS_MAX_NBLKS at *
  omega

/-- Whether there is memory for a mount. -/
def MountMem.Enough (mem : MountMem) : Prop :=
  mem.alloc_fs ∧ mem.sfs_buffer ∧ mem.hash_list ∧ mem.bitmap ∧ mem.map

theorem bitmap_create_eq {mem : MountMem} {ninos : Nat} (hpos : 0 < ninos)
    (h : ninos ≤ SFS_MAX_NBLKS) (hmem : mem.bitmap ∧ mem.map) :
    bitmap_create mem (roundup_2n ninos SFS_BLKBITS_SHIFT) =
      some (some ⟨freemapBlocks ninos * SFS_BLKBITS, freemapBlocks ninos * SFS_BLK_NENTRY,
        fun _ => 0xFFFFFFFF#32⟩) := by
  obtain ⟨-, hbits, hwords, hle⟩ := roundup_ninos h
  have hone : 0 < freemapBlocks ninos := by
    unfold freemapBlocks SFS_BLKBITS SFS_BLKSIZE
    omega
  have hassert : freemapBlocks ninos * SFS_BLKBITS ≠ 0 ∧
      (freemapBlocks ninos * SFS_BLKBITS + WORD_BITS) % 2 ^ 32 >
        freemapBlocks ninos * SFS_BLKBITS := by
    unfold SFS_BLKBITS SFS_BLKSIZE WORD_BITS
    omega
  have hno : ¬ (mem.bitmap = false ∨ mem.map = false) := by
    rintro (hf | hf)
    · exact Bool.false_ne_true (hf.symm.trans hmem.1)
    · exact Bool.false_ne_true (hf.symm.trans hmem.2)
  have hexact : freemapBlocks ninos * SFS_BLKBITS =
      freemapBlocks ninos * SFS_BLK_NENTRY * WORD_BITS := by
    unfold SFS_BLKBITS SFS_BLKSIZE SFS_BLK_NENTRY WORD_BITS
    omega
  unfold bitmap_create
  simp only
  rw [hbits, if_pos hassert, if_neg hno, hwords, if_neg (not_not.2 hexact)]

/-- The numbers of the super block stand one after the other. -/
theorem superBytes_read (super : sfs_super) :
    leAt 4 (patch Buffer.zero 0 (superBytes super)) 0 = SFS_MAGIC % 256 ^ 4 ∧
      leAt 4 (patch Buffer.zero 0 (superBytes super)) 4 = super.blocks % 256 ^ 4 ∧
      leAt 4 (patch Buffer.zero 0 (superBytes super)) 8 = super.unused_blocks % 256 ^ 4 := by
  have hall := slice_patch Buffer.zero 0 (superBytes super)
  rw [superBytes_length, slice_append _ _ 8 4, slice_append _ _ 4 4] at hall
  unfold superBytes at hall
  obtain ⟨hfirst, hunused⟩ := List.append_inj' hall (by simp)
  obtain ⟨hmagic, hblocks⟩ := List.append_inj' hfirst (by simp)
  unfold leAt superBytes
  rw [Nat.zero_add] at hunused hblocks
  rw [hmagic, hblocks, hunused, leNat_leBytes, leNat_leBytes, leNat_leBytes]
  exact ⟨rfl, rfl, rfl⟩

theorem super_read {sfs : Img} {image : Nat → Buffer} (h : ImgOk sfs) (hc : Closed sfs image) :
    leAt 4 (image SFS_BLKN_SUPER) 0 = SFS_MAGIC ∧
      leAt 4 (image SFS_BLKN_SUPER) 4 = sfs.ninos ∧
      leAt 4 (image SFS_BLKN_SUPER) 8 = sfs.ninos - sfs.next_ino := by
  obtain ⟨hmagic, hblocks, hunused⟩ := superBytes_read sfs.super
  have hsmall : sfs.ninos < 256 ^ 4 := Nat.lt_of_le_of_lt h.small (by decide)
  rw [hc.super, hmagic, hblocks, hunused, h.blocks, h.unused, Nat.mod_eq_of_lt hsmall,
    Nat.mod_eq_of_lt (Nat.lt_of_le_of_lt (Nat.sub_le _ _) hsmall)]
  exact ⟨rfl, rfl, rfl⟩

/-- The kernel mounts what the tool has closed. -/
theorem mount_ok {sfs : Img} {dev : Device} (h : ImgOk sfs) (hc : Closed sfs dev.disk)
    (hsize : dev.d_blocksize = SFS_BLKSIZE) (hdev : sfs.ninos ≤ dev.d_blocks) {mem : MountMem}
    (hmem : mem.Enough) :
    ∃ freemap, sfs_do_mount mem dev =
        some (.ok ⟨⟨sfs.ninos, sfs.ninos - sfs.next_ino⟩, false, freemap, dev.disk⟩) ∧
      freemap.nbits = freemapBlocks sfs.ninos * SFS_BLKBITS ∧
      ∀ b < freemap.nbits, freemap.bit b = decide (sfs.next_ino ≤ b ∧ b < sfs.ninos) := by
  obtain ⟨hfs, hbuf, hlist, hbm, hmap⟩ := hmem
  obtain ⟨hmagic, hblocks, hunused⟩ := super_read h hc
  have htwo := two_le_freemapEnd sfs.ninos
  have hfirst := h.first
  have hlast := h.last
  obtain ⟨hdiv, -, -, -⟩ := roundup_ninos h.small
  have hread : ¬ SFS_BLKN_SUPER + 1 > dev.d_blocks := by
    unfold SFS_BLKN_SUPER
    omega
  obtain ⟨map', hinit, hw⟩ := initFreemap_eq dev SFS_BLKN_FREEMAP 0 (freemapBlocks sfs.ninos)
    (fun _ => 0xFFFFFFFF#32) (by
      have hend : SFS_BLKN_FREEMAP + freemapBlocks sfs.ninos = freemapEnd sfs.ninos := rfl
      omega)
  have hlen : 4 * (freemapBlocks sfs.ninos * SFS_BLK_NENTRY) =
      freemapBlocks sfs.ninos * SFS_BLKSIZE := by
    unfold SFS_BLK_NENTRY SFS_BLKSIZE
    omega
  have hbits : ∀ b < freemapBlocks sfs.ninos * SFS_BLKBITS,
      bitmap.bit ⟨freemapBlocks sfs.ninos * SFS_BLKBITS, freemapBlocks sfs.ninos * SFS_BLK_NENTRY,
        map'⟩ b = decide (sfs.next_ino ≤ b ∧ b < sfs.ninos) := by
    intro b hb
    rw [← hc.diskBit hb]
    apply read_bit _ hb
    intro w hlt
    show map' w = _
    rw [hw, if_pos ⟨Nat.zero_le w, by omega⟩, Nat.sub_zero]
  have hcount : countFree ⟨freemapBlocks sfs.ninos * SFS_BLKBITS,
      freemapBlocks sfs.ninos * SFS_BLK_NENTRY, map'⟩ = sfs.ninos - sfs.next_ino := by
    rw [← hc.count]
    apply List.countP_congr
    intro b hb
    have hb := List.mem_range.1 hb
    rw [bitmap.test_eq, hbits b hb, hc.diskBit hb]
  refine ⟨⟨_, _, map'⟩, ?_, rfl, hbits⟩
  unfold sfs_do_mount sfs_init_read sfs_init_freemap
  simp only [hsize, hfs, hbuf, hlist, hread, hmagic, hblocks, hunused, hdiv,
    bitmap_create_eq (by omega) h.small ⟨hbm, hmap⟩, hlen, hinit, hcount, ne_eq, not_true_eq_false,
    if_false, if_true, Bool.true_eq_false, or_self, Except.map, Nat.not_lt.2 hdev]

/-- Whatever the size of the image file, as long as `create_sfs` takes it, and whatever was
allocated: on the closed image the free bits are those from `next_ino` up to the number of blocks,
the super block counts them, no block was allocated twice, and the kernel mounts the image from any
disk that holds it. -/
theorem mksfs_consistent (st_size : Nat) (disk : Nat → Buffer) (sfs0 : Img)
    (hcreate : create_sfs st_size disk = some sfs0) (ops : List MkOp) (inos : List Nat) (sfs : Img)
    (hrun : mkRun sfs0 ops = some (inos, sfs)) :
    ∃ closed, close_sfs sfs = some closed ∧
      (∀ b < freemapBlocks sfs.ninos * SFS_BLKBITS,
        diskBit closed.image b = decide (sfs.next_ino ≤ b ∧ b < sfs.ninos)) ∧
      leAt 4 (closed.image SFS_BLKN_SUPER) 4 = sfs.ninos ∧
      leAt 4 (closed.image SFS_BLKN_SUPER) 8 =
        (List.range (freemapBlocks sfs.ninos * SFS_BLKBITS)).countP (diskBit closed.image) ∧
      inos.Nodup ∧
      ∀ dev mem, dev.disk = closed.image → dev.d_blocksize = SFS_BLKSIZE →
        sfs.ninos ≤ dev.d_blocks → mem.Enough →
        ∃ freemap, sfs_do_mount mem dev =
          some (.ok ⟨⟨sfs.ninos, sfs.ninos - sfs.next_ino⟩, false, freemap, dev.disk⟩) := by
  obtain ⟨hok, -, hinos, -⟩ := (ImgOk.create hcreate).run ops hrun
  obtain ⟨closed, hclose, hclosed⟩ := hok.close
  obtain ⟨-, hblocks, hunused⟩ := super_read hok hclosed
  refine ⟨closed, hclose, fun b hb => hclosed.diskBit hb, hblocks, ?_, ?_, ?_⟩
  · rw [hunused, hclosed.count]
  · rw [hinos]
    exact List.nodup_range'
  · intro dev mem hdisk hsize hdev hmem
    rw [← hdisk] at hclosed
    obtain ⟨freemap, hmount, -, -⟩ := mount_ok hok hclosed hsize hdev hmem
    exact ⟨freemap, hmount⟩

/-- Five blocks, of which one is allocated. -/
theorem mksfs_consistent_fiveBlocks :
    ∃ closed : Img, (∀ b < SFS_BLKBITS, diskBit closed.image b = decide (b = 4)) := by
  obtain ⟨closed, -, hbits, -⟩ := mksfs_consistent (5 * 4096) (fun _ => Buffer.zero)
    ⟨⟨5, 2⟩, 5, 3, fun _ => Buffer.zero, [(1, Buffer.zero)]⟩ rfl [.alloc_cache] [3] _ rfl
  refine ⟨closed, ?_⟩
  intro b hb
  rw [hbits b (by exact hb)]
  show decide (4 ≤ b ∧ b < 5) = decide (b = 4)
  rw [decide_eq_decide]
  omega

end nehcpu.kernel.fs
