-- How a program gets its memory: `do_pgfault` and the parts of `load_icode` over the frames, with
-- the bytes that they leave there. The file comes from `sysfile_seek` and `sysfile_read`.
import Nehcpu.Lib.ByteLanes
import Nehcpu.Kernel.ExitMmap
import Nehcpu.Kernel.Syscall
import Nehcpu.Kernel.UserCopy

namespace nehcpu.kernel.frames

open cpu refcount Function lanes

abbrev Byte := BitVec 8

/-! ## The bytes of a frame -/

def Frames.byte (s : Frames) (page : Page) (k : Nat) : Byte :=
  lane (s.mem page (k / 4)) (BitVec.ofNat 2 k)

def Frames.putByte (s : Frames) (page : Page) (k : Nat) (b : Byte) : Frames :=
  let w := s.mem page (k / 4)
  let w := ofLanes fun i => if i = BitVec.ofNat 2 k then b else lane w i
  { s with mem := update s.mem page (update (s.mem page) (k / 4) w) }

/-- `memcpy` and `memset` into a page, from an offset on. -/
def Frames.putBytes (s : Frames) (page : Page) : Nat → List Byte → Frames
  | _, [] => s
  | off, b :: bs => (s.putByte page off b).putBytes page (off + 1) bs

/-- The byte that the program reads at an address, where a page is mapped. -/
def Frames.userByte (s : Frames) (d : Nat) (va : Word) : Option Byte :=
  (entryPage (s.pte d va)).map fun page => s.byte page (va.toNat % 4096)

/-! ## What a store into a frame leaves -/

section

variable (s : Frames) (page : Page)

theorem ofNat2_inj {j k : Nat} : BitVec.ofNat 2 j = BitVec.ofNat 2 k ↔ j % 4 = k % 4 := by
  rw [← BitVec.toNat_inj, BitVec.toNat_ofNat, BitVec.toNat_ofNat]

theorem byte_putByte (k : Nat) (b : Byte) (q : Page) (j : Nat) :
    (s.putByte page k b).byte q j = if q = page ∧ j = k then b else s.byte q j := by
  unfold Frames.byte Frames.putByte
  simp only
  by_cases hq : q = page
  · subst hq
    rw [update_self, update_apply]
    by_cases hw : j / 4 = k / 4
    · rw [if_pos hw, lane_ofLanes, hw]
      by_cases hm : j % 4 = k % 4
      · rw [if_pos (ofNat2_inj.2 hm), if_pos ⟨rfl, by omega⟩]
      · rw [if_neg fun he => hm (ofNat2_inj.1 he), if_neg]
        rintro ⟨-, rfl⟩
        exact hm rfl
    · rw [if_neg hw, if_neg]
      rintro ⟨-, rfl⟩
      exact hw rfl
  · rw [update_of_ne hq, if_neg fun h => hq h.1]

/-- Only the frame itself changes. -/
theorem putBytes_rest (off : Nat) (bs : List Byte) :
    (s.putBytes page off bs).dirs = s.dirs ∧ (s.putBytes page off bs).pgdirs = s.pgdirs ∧
      (s.putBytes page off bs).ref = s.ref ∧ (s.putBytes page off bs).free = s.free ∧
      (s.putBytes page off bs).tick = s.tick ∧
      ∀ q, q ≠ page → (s.putBytes page off bs).mem q = s.mem q := by
  induction bs generalizing s off with
  | nil => exact ⟨rfl, rfl, rfl, rfl, rfl, fun _ _ => rfl⟩
  | cons b bs ih =>
    obtain ⟨h1, h2, h3, h4, h5, h6⟩ := ih (s.putByte page off b) (off + 1)
    refine ⟨h1, h2, h3, h4, h5, ?_⟩
    intro q hq
    exact (h6 q hq).trans (update_of_ne hq _ _)

theorem byte_putBytes (off : Nat) (bs : List Byte) (q : Page) (j : Nat) :
    (s.putBytes page off bs).byte q j =
      if q = page ∧ off ≤ j ∧ j < off + bs.length then bs.getD (j - off) 0#8 else s.byte q j := by
  induction bs generalizing s off with
  | nil =>
    rw [if_neg]
    · rfl
    · rintro ⟨-, h1, h2⟩
      rw [List.length_nil] at h2
      omega
  | cons b bs ih =>
    have hcons : (s.putBytes page off (b :: bs)) =
        (s.putByte page off b).putBytes page (off + 1) bs := rfl
    rw [hcons, ih, byte_putByte]
    by_cases hq : q = page
    · subst hq
      simp only [true_and, List.length_cons]
      by_cases hj : j = off
      · subst hj
        rw [if_neg (by omega), if_pos rfl, if_pos (by omega), Nat.sub_self]
        rfl
      · by_cases hin : off + 1 ≤ j ∧ j < off + 1 + bs.length
        · rw [if_pos hin, if_pos (by omega)]
          have hsub : j - off = j - (off + 1) + 1 := by omega
          rw [hsub]
          rfl
        · rw [if_neg hin, if_neg hj, if_neg (by omega)]
    · rw [if_neg fun h => hq h.1, if_neg fun h => hq h.1, if_neg fun h => hq h.1]

end

/-! ## `do_pgfault` -/

def areaPerm (vm_flags : Word) : Word :=
  if vm_flags &&& VM_WRITE != 0#32 then PTE_U ||| PTE_W else PTE_U

/-- The flag is `ret == 0`. -/
def do_pgfault (A : Allocator) (s : Frames) (mm : Mm) (error_code : Nat) (addr : Word) :
    Frames × Mm × Bool :=
  let (vma, mm) := find_vma mm addr
  match vma with
  | none => (s, mm, false)
  | some vma =>
    if addr < vma.vm_start ∨ faultAllowed error_code vma.vm_flags = false then (s, mm, false)
    else
      let addr := ROUNDDOWN_2N addr PGSHIFT
      match get_pte A s mm.pgdir addr true with
      | (none, s) => (s, mm, false)
      | (some ptep, s) =>
        if s.load ptep = 0#32 then
          match pgdir_alloc_page A s mm.pgdir addr (areaPerm vma.vm_flags) with
          | (none, s) => (s, mm, false)
          | (some _, s) => (s, mm, true)
        else (s, mm, false)

/-! ## The file -/

abbrev E_INVAL : Word := 3#32
abbrev E_NO_MEM : Word := 4#32
abbrev E_INVAL_ELF : Word := 8#32

/-- An open file: what it holds, and what the calls of `sysfile_seek` and `sysfile_read` return
and leave in the buffer, each call by its number. A seek to a negative offset fails, and a read of
all that was asked for is a read of what the file holds. -/
structure File where
  bytes : Nat → Byte
  sysfile_seek : Nat → Word → Word
  sysfile_read : Nat → Word → Word → Word × List Byte
  seek_pos : ∀ {t offset}, sysfile_seek t offset = 0#32 → offset.toNat < 2147483648
  read_length : ∀ {t offset len}, (sysfile_read t offset len).2.length ≤ len.toNat
  read_all : ∀ {t offset len}, len.toNat ≤ 4096 → (sysfile_read t offset len).1 = len →
    (sysfile_read t offset len).2 = (List.range len.toNat).map fun k => bytes (offset.toNat + k)

/-- What it returns, and what it leaves in the buffer. -/
def load_icode_read (F : File) (t : Nat) (len offset : Word) : Word × List Byte :=
  let ret := F.sysfile_seek t offset
  if ret ≠ 0#32 then (ret, [])
  else
    let (ret, bytes) := F.sysfile_read t offset len
    if ret ≠ len then (if ret.msb then ret else -1#32, bytes) else (0#32, bytes)

/-- A word of a header. -/
def wordAt (bytes : List Byte) (off : Nat) : Word :=
  ofLanes fun i => bytes.getD (off + i.toNat) 0#8

abbrev ELF_MAGIC : Word := 0x464C457F#32
abbrev ELF_PT_LOAD : Word := 1#32
abbrev ELF_PF_X : Word := 1#32
abbrev ELF_PF_W : Word := 2#32
abbrev ELF_PF_R : Word := 4#32

/-- The fields of `struct elfhdr32` that are used. -/
structure Elfhdr where
  e_magic : Word
  e_entry : Word
  e_phoff : Word
  e_phnum : Word

/-- `sizeof(struct __elfhdr)` -/
abbrev ELFHDR_SIZE : Word := 52#32

def _load_elfhdr (base : List Byte) : Elfhdr :=
  ⟨wordAt base 0, wordAt base 24, wordAt base 28, wordAt base 44 &&& 0xFFFF#32⟩

/-- The fields of `struct proghdr` that are used. -/
structure Proghdr where
  p_type : Word
  p_offset : Word
  p_va : Word
  p_filesz : Word
  p_memsz : Word
  p_flags : Word

/-- `sizeof(struct proghdr)` -/
abbrev PROGHDR_SIZE : Word := 32#32

def proghdr (base : List Byte) : Proghdr :=
  ⟨wordAt base 0, wordAt base 4, wordAt base 8, wordAt base 16, wordAt base 20, wordAt base 24⟩

/-! ## The segments -/

/-- What `load_icode` works on: the frames, its `mm`, how many structures of `kmalloc` are in use,
and the number of the next call of `load_icode_read`. -/
structure Loader where
  pages : Frames
  mm : Mm
  heap : Nat
  reads : Nat

/-- A part of `load_icode` goes on, or it jumps. -/
inductive Part (α : Type)
  | next (a : α)
  | bad_cleanup_mmap (ret : Word) (s : Loader)

/-- `mm_map`, which fails for want of memory where it would work with memory. -/
def map_area (A : Allocator) (addr len vm_flags : Word) (s : Loader) : Option (Part Loader) :=
  match mm_map s.mm addr len vm_flags (A.memory s.pages.tick) with
  | none => none
  | some (mm, ok) =>
    let s' := { s with mm := mm, pages := { s.pages with tick := s.pages.tick + 1 } }
    if ok then some (.next { s' with heap := s'.heap + 1 })
    else
      let ret := match mm_map s.mm addr len vm_flags true with
        | some (_, true) => -E_NO_MEM
        | _ => -E_INVAL
      some (.bad_cleanup_mmap ret s')

/-- What is filled of the page that ends at `la`, from `off` on. -/
def partSize (off la stop : Word) : Word :=
  let size := PGSIZE - off
  if stop < la then size - (la - stop) else size

/-- The loop over the pages of the file part, with the rounds that are left at most. -/
def fileLoop (A : Allocator) (F : File) (perm stop : Word) :
    Nat → Word → Word → Word → Option Page → Loader →
      Option (Part (Word × Word × Option Page × Loader))
  | 0, _, _, _, _, _ => none
  | rounds + 1, start, la, offset, page, s =>
    if start < stop then
      match pgdir_alloc_page A s.pages s.mm.pgdir la perm with
      | (none, frames) => some (.bad_cleanup_mmap (-E_NO_MEM) { s with pages := frames })
      | (some page, frames) =>
        let off := start - la
        let la := la + PGSIZE
        let size := partSize off la stop
        let (ret, bytes) := load_icode_read F s.reads size offset
        let s := { s with pages := frames.putBytes page off.toNat bytes, reads := s.reads + 1 }
        if ret ≠ 0#32 then some (.bad_cleanup_mmap ret s)
        else fileLoop A F perm stop rounds (start + size) la (offset + size) (some page) s
    else some (.next (start, la, page, s))

/-- The rest of the last page of the file part. -/
def clearPart (stop start la : Word) (page : Option Page) (s : Loader) : Option (Word × Loader) :=
  let off := start + PGSIZE - la
  let size := partSize off la stop
  match page with
  | none => none
  | some page =>
    let frames := s.pages.putBytes page off.toNat (List.replicate size.toNat 0#8)
    let start := start + size
    if (stop < la ∧ start = stop) ∨ (la ≤ stop ∧ start = la) then
      some (start, { s with pages := frames })
    else none

/-- The loop over the pages that no byte of the file is in. -/
def zeroLoop (A : Allocator) (perm stop : Word) :
    Nat → Word → Word → Option Page → Loader → Option (Part (Option Page × Loader))
  | 0, _, _, _, _ => none
  | rounds + 1, start, la, page, s =>
    if start < stop then
      match pgdir_alloc_page A s.pages s.mm.pgdir la perm with
      | (none, frames) => some (.bad_cleanup_mmap (-E_NO_MEM) { s with pages := frames })
      | (some page, frames) =>
        let off := start - la
        let la := la + PGSIZE
        let size := partSize off la stop
        let frames := frames.putBytes page off.toNat (List.replicate size.toNat 0#8)
        zeroLoop A perm stop rounds (start + size) la (some page) { s with pages := frames }
    else some (.next (page, s))

/-- The zero part, after the file part. -/
def clear_bss (A : Allocator) (perm stop start la : Word) (page : Option Page) (s : Loader) :
    Option (Part (Option Page × Loader)) :=
  if start < la then
    if stop ≤ start then some (.next (page, s))
    else
      match clearPart stop start la page s with
      | none => none
      | some (start, s) => zeroLoop A perm stop NPAGES start la page s
  else zeroLoop A perm stop NPAGES start la page s

def segFlags (ph : Proghdr) : Word :=
  (if ph.p_flags &&& ELF_PF_X != 0#32 then VM_EXEC else 0#32) |||
    (if ph.p_flags &&& ELF_PF_W != 0#32 then VM_WRITE else 0#32) |||
    (if ph.p_flags &&& ELF_PF_R != 0#32 then VM_READ else 0#32)

/-- One loadable header. -/
def load_segment (A : Allocator) (F : File) (ph : Proghdr) (page : Option Page) (s : Loader) :
    Option (Part (Option Page × Loader)) :=
  if ph.p_memsz < ph.p_filesz then some (.bad_cleanup_mmap (-E_INVAL_ELF) s)
  else
    match map_area A ph.p_va ph.p_memsz (segFlags ph) s with
    | none => none
    | some (.bad_cleanup_mmap ret s) => some (.bad_cleanup_mmap ret s)
    | some (.next s) =>
      let perm := areaPerm (segFlags ph)
      let la := ROUNDDOWN_2N ph.p_va PGSHIFT
      match fileLoop A F perm (ph.p_va + ph.p_filesz) NPAGES ph.p_va la ph.p_offset page s with
      | none => none
      | some (.bad_cleanup_mmap ret s) => some (.bad_cleanup_mmap ret s)
      | some (.next (start, la, page, s)) =>
        clear_bss A perm (ph.p_va + ph.p_memsz) start la page s

/-- The loop over the headers, with the number of those that are left. -/
def loadHeaders (A : Allocator) (F : File) (elf : Elfhdr) :
    Nat → Option Page → Loader → Option (Part Loader)
  | 0, _, s => some (.next s)
  | left + 1, page, s =>
    let phnum := elf.e_phnum.toNat - (left + 1)
    let phoff := elf.e_phoff + PROGHDR_SIZE * BitVec.ofNat 32 phnum
    let (ret, bytes) := load_icode_read F s.reads PROGHDR_SIZE phoff
    let s := { s with reads := s.reads + 1 }
    if ret ≠ 0#32 then some (.bad_cleanup_mmap ret s)
    else
      let ph := proghdr bytes
      if ph.p_type ≠ ELF_PT_LOAD then loadHeaders A F elf left page s
      else
        match load_segment A F ph page s with
        | none => none
        | some (.bad_cleanup_mmap ret s) => some (.bad_cleanup_mmap ret s)
        | some (.next (page, s)) => loadHeaders A F elf left page s

abbrev USTACKTOP : Word := USERTOP
abbrev USTACKSIZE : Word := 16#32 * PGSIZE

/-- All segments, and the area of the stack. -/
def loadAreas (A : Allocator) (F : File) (elf : Elfhdr) (s : Loader) : Option (Part Loader) :=
  match loadHeaders A F elf elf.e_phnum.toNat none s with
  | none => none
  | some (.bad_cleanup_mmap ret s) => some (.bad_cleanup_mmap ret s)
  | some (.next s) =>
    map_area A (USTACKTOP - USTACKSIZE) USTACKSIZE (VM_READ ||| VM_WRITE ||| VM_STACK) s

/-! ## The argument block -/

/-- A store of the kernel at a user address. The page that it goes to is mapped and writable, or a
page fault maps it. Else there is no page. -/
def userPage (A : Allocator) (va : Word) (s : Loader) : Option (Page × Loader) :=
  let pte := s.pages.pte s.mm.pgdir va
  if pte = 0#32 then
    match do_pgfault A s.pages s.mm (get_error_code true pte) va with
    | (_, _, false) => none
    | (frames, mm, true) =>
      some (pte2page (frames.pte mm.pgdir va), { s with pages := frames, mm := mm })
  else if ptep_present pte ∧ ptep_s_write pte then some (pte2page pte, s)
  else none

def storeByte (A : Allocator) (va : Word) (b : Byte) (s : Loader) : Option Loader :=
  match userPage A va s with
  | none => none
  | some (page, s) => some { s with pages := s.pages.putByte page (va.toNat % 4096) b }

def storeBytes (A : Allocator) : Word → List Byte → Loader → Option Loader
  | _, [], s => some s
  | va, b :: bs, s =>
    match storeByte A va b s with
    | none => none
    | some s => storeBytes A (va + 1#32) bs s

def wordBytes (w : Word) : List Byte := [lane w 0#2, lane w 1#2, lane w 2#2, lane w 3#2]

/-- The loop over the arguments from `i` on: `strcpy`, and the pointer into `uargv`. -/
def storeArgs (A : Allocator) (stacktop uargv : Word) : Nat → List (List Byte) → Loader →
    Option Loader
  | _, [], s => some s
  | i, arg :: args, s =>
    let dst := stacktop + BitVec.ofNat 32 i * PGSIZE
    match storeBytes A dst (arg ++ [0#8]) s with
    | none => none
    | some s =>
      match storeBytes A (uargv + 4#32 * BitVec.ofNat 32 i) (wordBytes dst) s with
      | none => none
      | some s => storeArgs A stacktop uargv (i + 1) args s

def argTop (argc : Nat) : Word := USTACKTOP - BitVec.ofNat 32 argc * PGSIZE

def argArray (argc : Nat) : Word := argTop argc - BitVec.ofNat 32 argc * 4#32

/-! ## `load_icode` -/

abbrev ST0_KSU : Word := 0x18#32
abbrev KSU_USER : Word := 0x10#32
abbrev ST0_EXL : Word := 0x2#32

def put_pgdir (s : Frames) (mm : Mm) : Frames := { s with dirs := s.dirs.erase mm.pgdir }

/-- `mm_destroy`: `kfree` of the areas and of the structure. -/
def mm_destroy (mm : Mm) (heap : Nat) : Option Nat :=
  if mm.mm_count = 0 then some (heap - (mm.mmap_list.length + 1)) else none

/-- How `load_icode` ends: it comes back, or a store of the argument block meets a page fault that
cannot be served, where the machine stands still. -/
inductive Loaded
  | fails (ret : Word) (frames : Frames) (heap : Nat)
  | runs (tf : trap.Trapframe) (s : Loader)
  | faults

/-- From `bad_elf_cleanup_pgdir` on. -/
def cleanup_pgdir (ret : Word) (frames : Frames) (mm : Mm) (heap : Nat) : Option Loaded :=
  (mm_destroy mm heap).map fun heap => .fails ret (put_pgdir frames mm) heap

/-- From `bad_cleanup_mmap` on. -/
def cleanup_mmap (A : Allocator) (ret : Word) (s : Loader) : Option Loaded :=
  (exit_mmap A s.pages s.mm).bind fun frames => cleanup_pgdir ret frames s.mm s.heap

/-- The frame of the new program. -/
def startFrame (elf : Elfhdr) (status : Word) (argc : Nat) : trap.Trapframe where
  tf_vaddr := 0#32
  tf_status := (status &&& ~~~ST0_KSU) ||| KSU_USER ||| ST0_EXL
  tf_cause := 0#32
  tf_regs i :=
    if i = trap.MIPS_REG_SP then USTACKTOP
    else if i = trap.MIPS_REG_A0 then BitVec.ofNat 32 argc
    else if i = trap.MIPS_REG_A1 then argArray argc
    else 0#32
  tf_epc := elf.e_entry

/-- The end of `load_icode`: the memory is the current one, and the arguments go into it. -/
def startProgram (A : Allocator) (elf : Elfhdr) (status : Word) (kargv : List (List Byte))
    (s : Loader) : Loaded :=
  let argc := kargv.length
  let s := { s with mm := { s.mm with mm_count := s.mm.mm_count + 1 } }
  match storeArgs A (argTop argc) (argArray argc) 0 kargv s with
  | none => .faults
  | some s => .runs (startFrame elf status argc) s

/-- `load_icode` for a process without a memory. `newdir` is the page directory that
`setup_pgdir` gets, `status` the CP0 register, and `kargv` has the strings of the arguments. -/
def load_icode (A : Allocator) (F : File) (newdir : Option Nat) (status : Word)
    (kargv : List (List Byte)) (frames : Frames) (heap : Nat) : Option Loaded :=
  if A.memory frames.tick = false then
    some (.fails (-E_NO_MEM) { frames with tick := frames.tick + 1 } heap)
  else
    let frames := { frames with tick := frames.tick + 1 }
    let heap := heap + 1
    match newdir with
    | none => (mm_destroy (mm_create 0) heap).map fun heap => .fails (-E_NO_MEM) frames heap
    | some pgdir =>
      let frames := setup_pgdir frames pgdir
      let mm := mm_create pgdir
      let (ret, bytes) := load_icode_read F 0 ELFHDR_SIZE 0#32
      if ret ≠ 0#32 then cleanup_pgdir ret frames mm heap
      else
        let elf := _load_elfhdr bytes
        if elf.e_magic ≠ ELF_MAGIC then cleanup_pgdir (-E_INVAL_ELF) frames mm heap
        else
          match loadAreas A F elf ⟨frames, mm, heap, 1⟩ with
          | none => none
          | some (.bad_cleanup_mmap ret s) => cleanup_mmap A ret s
          | some (.next s) => some (startProgram A elf status kargv s)

end nehcpu.kernel.frames
