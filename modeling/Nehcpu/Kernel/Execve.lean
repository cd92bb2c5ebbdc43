-- `do_execve`: the strings of the arguments are copied out of the old memory, `load_icode` makes the
-- new one, and the program starts with a stack pointer that is above its arguments.
import Nehcpu.Kernel.CopyString
import Nehcpu.Kernel.LoadWraps

namespace nehcpu.kernel.frames

open cpu refcount Function lanes

/-! ## The strings -/

abbrev EXEC_MAX_ARG_NUM : Nat := 32
abbrev EXEC_MAX_ARG_LEN : Nat := 4095
abbrev PROC_NAME_LEN : Nat := 30

/-- `argv[i]` -/
def argvAt (mem : Word → Byte) (argv : Word) (i : Nat) : Word :=
  ofLanes fun k => mem (argv + 4#32 * BitVec.ofNat 32 i + BitVec.ofNat 32 k.toNat)

/-- The string at an address, with the bytes that are left at most. -/
def stringAt (mem : Word → Byte) : Word → Nat → List Byte
  | _, 0 => []
  | p, left + 1 => if mem p = 0#8 then [] else mem p :: stringAt mem (p + 1#32) left

def setBytes (mem : Word → Byte) (p : Word) (bs : List Byte) : Word → Byte :=
  fun a => if (a - p).toNat < bs.length then bs.getD (a - p).toNat 0#8 else mem a

/-- `"<null> %d"` with the number of the process. -/
def nullName (pid : Nat) : List Byte :=
  (("<null> ".toList ++ (Nat.toDigits 10 pid)).take PROC_NAME_LEN).map fun c =>
    BitVec.ofNat 8 c.toNat

/-- What `copy_kargv` leaves: what it returns, the memory with the buffers, and the buffers. -/
structure Kargv where
  ret : Word
  mem : Word → Byte
  mm : Option Mm
  kargv : List Word

/-- The loop over the arguments from `i` on, where `kmalloc` has the buffer of each. -/
def copyArgs (kmalloc : Nat → Option Word) (argv : Word) :
    Nat → Nat → (Word → Byte) → Option Mm → Kargv
  | 0, _, mem, mm => ⟨0#32, mem, mm, []⟩
  | left + 1, i, mem, mm =>
    match kmalloc i with
    | none => ⟨-E_NO_MEM, mem, mm, []⟩
    | some buffer =>
      match copy_string mem mm buffer (argvAt mem argv i) (BitVec.ofNat 32 (EXEC_MAX_ARG_LEN + 1)) with
      | (false, s) => ⟨-E_INVAL, s.mem, s.mm, []⟩
      | (true, s) =>
        let k := copyArgs kmalloc argv left (i + 1) s.mem s.mm
        { k with kargv := buffer :: k.kargv }

def copy_kargv (kmalloc : Nat → Option Word) (mem : Word → Byte) (mm : Option Mm) (argc : Nat)
    (argv : Word) : Kargv :=
  match user_mem_check mm argv (4#32 * BitVec.ofNat 32 argc) false with
  | (false, mm) => ⟨-E_INVAL, mem, mm, []⟩
  | (true, mm) => copyArgs kmalloc argv argc 0 mem mm

/-! ## `do_execve` -/

/-- The process that calls: what it can read, its memory, and the frames below. -/
structure Caller where
  pid : Nat
  mem : Word → Byte
  mm : Option Mm
  pages : Frames
  heap : Nat

/-- What `do_execve` gets from other files: the buffer for the name on the kernel stack, those of
`kmalloc`, what `sysfile_open` returns, the file behind it, and the page of the new directory. -/
structure Files where
  local_name : Word
  kmalloc : Nat → Option Word
  sysfile_open : Word → Word
  file : Word → File
  newdir : Option Nat
  status : Word

/-- How `do_execve` ends: it returns to the old program, the process exits, or the new program
starts. -/
inductive Executed
  | returns (ret : Word)
  | exits (error_code : Word)
  | starts (tf : trap.Trapframe) (s : Loader) (name : List Byte)

/-- The name that the process gets: of the program, or one with its number. -/
def execName (E : Files) (p : Caller) (name : Word) : Bool × (Word → Byte) × Option Mm :=
  let mem := setBytes p.mem E.local_name (List.replicate (PROC_NAME_LEN + 1) 0#8)
  if name = 0#32 then (true, setBytes mem E.local_name (nullName p.pid), p.mm)
  else
    let (ok, s) := copy_string mem p.mm E.local_name name (BitVec.ofNat 32 (PROC_NAME_LEN + 1))
    (ok, s.mem, s.mm)

/-- The old memory goes, if no one else has it. -/
def leaveMemory (A : Allocator) (frames : Frames) (mm : Option Mm) (heap : Nat) :
    Option (Frames × Nat) :=
  match mm with
  | none => some (frames, heap)
  | some mm =>
    let mm := { mm with mm_count := mm.mm_count - 1 }
    if mm.mm_count = 0 then
      match exit_mmap A frames mm with
      | none => none
      | some frames => (mm_destroy mm heap).map fun heap => (put_pgdir frames mm, heap)
    else some (frames, heap)

/-- None where the machine stands still. -/
def do_execve (A : Allocator) (E : Files) (p : Caller) (name : Word) (argc : Int) (argv : Word) :
    Option Executed :=
  if ¬ (1 ≤ argc ∧ argc ≤ EXEC_MAX_ARG_NUM) then some (.returns (-E_INVAL))
  else
    let argc := argc.toNat
    match execName E p name with
    | (false, _, _) => some (.returns (-E_INVAL))
    | (true, mem, mm) =>
      let k := copy_kargv E.kmalloc mem mm argc argv
      if k.ret ≠ 0#32 then some (.returns k.ret)
      else
        let path := argvAt k.mem argv 0
        let fd := E.sysfile_open path
        if fd.msb then some (.exits fd)
        else
          -- the buffers of the arguments are in use until the end
          match leaveMemory A p.pages k.mm (p.heap + argc) with
          | none => none
          | some (frames, heap) =>
            let kargv := k.kargv.map fun buffer => stringAt k.mem buffer EXEC_MAX_ARG_LEN
            match load_icode A (E.file fd) E.newdir E.status kargv frames heap with
            | none => none
            | some .faults => none
            | some (.fails ret _ _) => some (.exits ret)
            | some (.runs tf s) =>
              let name := (List.range PROC_NAME_LEN).map fun i =>
                k.mem (E.local_name + BitVec.ofNat 32 i)
              some (.starts tf { s with heap := s.heap - argc } name)

/-! ## The arguments of the program -/

/-- The strings that the caller passes. -/
def passedArgs (p : Caller) (argc : Int) (argv : Word) : List (List Byte) :=
  (List.range argc.toNat).map fun i => stringAt p.mem (argvAt p.mem argv i) EXEC_MAX_ARG_LEN

/-- `argv[i]`, as the program reads it. -/
def userArg (tf : trap.Trapframe) (s : Loader) (i : Nat) : Option Word :=
  let read k := s.pages.userByte s.mm.pgdir
    (tf.tf_regs trap.MIPS_REG_A1 + 4#32 * BitVec.ofNat 32 i + BitVec.ofNat 32 k)
  match read 0, read 1, read 2, read 3 with
  | some b0, some b1, some b2, some b3 =>
    some (ofLanes fun k => [b0, b1, b2, b3].getD k.toNat 0#8)
  | _, _, _, _ => none

/-- The byte is in the stack, where no push of the program comes. -/
def SafeByte (tf : trap.Trapframe) (a : Word) : Prop :=
  stackArea.lo ≤ a.toNat ∧ a.toNat < stackArea.hi ∧ tf.tf_regs trap.MIPS_REG_SP ≤ a

/-- The arguments are there, one apart from the other, and all of their bytes are safe. -/
structure ArgsSafe (tf : trap.Trapframe) (s : Loader) (args : List (List Byte)) : Prop where
  argc : tf.tf_regs trap.MIPS_REG_A0 = BitVec.ofNat 32 args.length
  array : ∀ k < 4 * args.length, SafeByte tf (tf.tf_regs trap.MIPS_REG_A1 + BitVec.ofNat 32 k)
  strings : ∀ i < args.length, ∃ p, userArg tf s i = some p ∧
    ∀ k ≤ (args.getD i []).length, SafeByte tf (p + BitVec.ofNat 32 k) ∧
      s.pages.userByte s.mm.pgdir (p + BitVec.ofNat 32 k) =
        some ((args.getD i [] ++ [0#8]).getD k 0#8)
  apart : ∀ i < args.length, ∀ j < args.length, i ≠ j → ∀ p q,
    userArg tf s i = some p → userArg tf s j = some q →
      ∀ k ≤ (args.getD i []).length, ∀ l ≤ (args.getD j []).length,
        p + BitVec.ofNat 32 k ≠ q + BitVec.ofNat 32 l
  arrayApart : ∀ i < args.length, ∀ p, userArg tf s i = some p →
    ∀ k ≤ (args.getD i []).length, ∀ l < 4 * args.length,
      p + BitVec.ofNat 32 k ≠ tf.tf_regs trap.MIPS_REG_A1 + BitVec.ofNat 32 l

/-- Where all arguments are copied there is a buffer for each. -/
theorem copyArgs_length {kmalloc : Nat → Option Word} {argv : Word} (left i : Nat)
    (mem : Word → Byte) (mm : Option Mm) (h : (copyArgs kmalloc argv left i mem mm).ret = 0#32) :
    (copyArgs kmalloc argv left i mem mm).kargv.length = left := by
  induction left generalizing i mem mm with
  | zero => rfl
  | succ left ih =>
    unfold copyArgs at h ⊢
    cases hk : kmalloc i with
    | none =>
      rw [hk] at h
      have hret : -E_NO_MEM = 0#32 := h
      cases hret
    | some buffer =>
      rw [hk] at h
      simp only at h ⊢
      split at h
      · have hret : -E_INVAL = 0#32 := h
        cases hret
      · next s hs =>
        rw [List.length_cons, ih (i + 1) s.mem s.mm h]

theorem copy_kargv_length {kmalloc : Nat → Option Word} {mem : Word → Byte} {mm : Option Mm}
    {argc : Nat} {argv : Word} (h : (copy_kargv kmalloc mem mm argc argv).ret = 0#32) :
    (copy_kargv kmalloc mem mm argc argv).kargv.length = argc := by
  unfold copy_kargv at h ⊢
  split at h
  · have hret : -E_INVAL = 0#32 := h
    cases hret
  · next mm' hm =>
    exact copyArgs_length argc 0 mem mm' h

theorem do_execve_tf {A : Allocator} {E : Files} {p : Caller} {name argv : Word} {argc : Int}
    {tf : trap.Trapframe} {s : Loader} {n : List Byte}
    (h : do_execve A E p name argc argv = some (.starts tf s n)) :
    1 ≤ argc.toNat ∧ argc.toNat ≤ 32 ∧ ∃ elf, tf = startFrame elf E.status argc.toNat := by
  unfold do_execve at h
  split at h
  · cases h
  next hargc =>
  have hr : 1 ≤ argc ∧ argc ≤ 32 := not_not.1 hargc
  simp only at h
  split at h
  · cases h
  next mem mm hname =>
  split at h
  · cases h
  next hret =>
  have hlen := copy_kargv_length (not_not.1 hret)
  split at h
  · cases h
  split at h
  · cases h
  next frames heap hleave =>
  split at h
  · cases h
  · cases h
  · cases h
  · next tf' s' hload =>
    obtain ⟨rfl, -, -⟩ := Executed.starts.inj (Option.some_inj.1 h)
    obtain ⟨-, s1, -, hs⟩ := load_icode_runs hload
    unfold startProgram at hs
    simp only at hs
    split at hs
    · cases hs
    · obtain ⟨rfl, -⟩ := Loaded.runs.inj hs
      rw [List.length_map, hlen]
      exact ⟨by omega, by omega, _, rfl⟩

/-- The array lies below the stack pointer. -/
theorem not_argsSafe (elf : Elfhdr) (status : Word) {n : Nat} (hpos : 1 ≤ n) (hmax : n ≤ 32)
    (s : Loader) (args : List (List Byte)) : ¬ ArgsSafe (startFrame elf status n) s args := by
  intro hs
  have hcount : BitVec.ofNat 32 n = BitVec.ofNat 32 args.length := hs.argc
  have hargs : 0 < args.length := by
    apply Nat.pos_of_ne_zero
    intro hz
    have hn := congrArg BitVec.toNat hcount
    rw [hz, BitVec.toNat_ofNat, BitVec.toNat_ofNat] at hn
    omega
  obtain ⟨-, -, hsp⟩ := hs.array 0 (by omega)
  have hsp' : USTACKTOP ≤ argArray n + BitVec.ofNat 32 0 := hsp
  rw [BitVec.add_zero] at hsp'
  have hall : ∀ k < 33, 1 ≤ k → ¬ USTACKTOP ≤ argArray k := by decide
  exact hall n (by omega) hpos hsp'

/-- No program starts with its arguments safe. -/
theorem do_execve_unsafe (A : Allocator) (E : Files) (p : Caller) (name : Word) (argc : Int)
    (argv : Word) (tf : trap.Trapframe) (s : Loader) (n : List Byte)
    (h : do_execve A E p name argc argv = some (.starts tf s n)) (args : List (List Byte)) :
    ¬ ArgsSafe tf s args := by
  obtain ⟨hpos, hmax, elf, rfl⟩ := do_execve_tf h
  exact not_argsSafe elf E.status hpos hmax s args
/-! ## A kernel thread that starts a program -/

/-- All that has to go well. -/
theorem do_execve_starts {A : Allocator} {E : Files} {p : Caller} {name argv : Word} {argc : Int}
    (hargc : 1 ≤ argc ∧ argc ≤ EXEC_MAX_ARG_NUM) {mem : Word → Byte} {mm : Option Mm} {k : Kargv}
    (hname : execName E p name = (true, mem, mm))
    (hk : copy_kargv E.kmalloc mem mm argc.toNat argv = k) (hret : k.ret = 0#32)
    (hfd : (E.sysfile_open (argvAt k.mem argv 0)).msb = false) {frames : Frames} {heap : Nat}
    (hleave : leaveMemory A p.pages k.mm (p.heap + argc.toNat) = some (frames, heap))
    {tf : trap.Trapframe} {s : Loader}
    (hload : load_icode A (E.file (E.sysfile_open (argvAt k.mem argv 0))) E.newdir E.status
      (k.kargv.map fun buffer => stringAt k.mem buffer EXEC_MAX_ARG_LEN) frames heap =
        some (.runs tf s)) :
    ∃ s' n, do_execve A E p name argc argv = some (.starts tf s' n) := by
  refine ⟨{ s with heap := s.heap - argc.toNat }, (List.range PROC_NAME_LEN).map fun i =>
    k.mem (E.local_name + BitVec.ofNat 32 i), ?_⟩
  unfold do_execve
  rw [if_neg (not_not.2 hargc)]
  simp only [hname, hk, hret, hfd, hleave, hload, ne_eq, not_true_eq_false, if_false,
    Bool.false_eq_true]

/-- A string that ends in its first part. -/
theorem copyParts_first {s : Copying} {dst src maxn part : Word}
    (hc : (s.check src (firstPart part maxn)).1 = true)
    (hn : (strnlen (s.check src (firstPart part maxn)).2 src (firstPart part maxn).toNat).1 <
      (firstPart part maxn).toNat) :
    copyParts s dst src maxn part =
      (true, memcpyBytes (strnlen (s.check src (firstPart part maxn)).2 src
        (firstPart part maxn).toNat).2 dst src
        ((strnlen (s.check src (firstPart part maxn)).2 src (firstPart part maxn).toNat).1 + 1)) := by
  rw [copyParts]
  simp only
  rw [dif_pos hc, if_pos hn]

/-- The array of one argument at `0x80001000`, which is the string `"a"`. -/
def threadMemory : Word → Byte :=
  setBytes (setBytes (fun _ => 0#8) 0x80001000#32 (wordBytes 0x80002000#32)) 0x80002000#32 [0x61#8]

def threadCaller : Caller := ⟨2, threadMemory, none, emptyMemory, 0⟩

def threadFiles : Files where
  local_name := 0x80004000#32
  kmalloc i := some (0x80005000#32 + BitVec.ofNat 32 i * PGSIZE)
  sysfile_open _ := 2#32
  file _ := smallSegment
  newdir := some 0
  status := 0#32

/-- The memory with the name of the process in it. -/
def namedMemory : Word → Byte := (execName threadFiles threadCaller 0#32).2.1

theorem namedMemory_copied : ∃ s,
    copy_string namedMemory none 0x80005000#32 0x80002000#32 4096#32 = (true, s) ∧
      s.mm = none ∧ stringAt s.mem 0x80005000#32 EXEC_MAX_ARG_LEN = [0x61#8] := by
  obtain ⟨s0, hs0⟩ : ∃ s0 : Copying, s0 = ⟨namedMemory, none, []⟩ := ⟨_, rfl⟩
  have hpart : firstPart (ROUNDDOWN_2N (0x80002000#32 + PGSIZE) PGSHIFT - 0x80002000#32) 4096#32 =
      4096#32 := by decide
  have hc : (s0.check 0x80002000#32 4096#32).1 = true := by
    rw [hs0]
    decide +kernel
  have hone : (strnlen (s0.check 0x80002000#32 4096#32).2 0x80002000#32 4096).1 = 1 := by
    rw [hs0]
    decide +kernel
  refine ⟨memcpyBytes (strnlen (s0.check 0x80002000#32 4096#32).2 0x80002000#32 4096).2 0x80005000#32
    0x80002000#32 2, ?_, ?_, ?_⟩
  · unfold copy_string
    rw [← hs0, copyParts_first]
    · rw [hpart]
      show (true, memcpyBytes _ _ _ ((strnlen (s0.check _ _).2 _ 4096).1 + 1)) = _
      rw [hone]
      rfl
    · rw [hpart]
      exact hc
    · rw [hpart]
      show (strnlen (s0.check _ _).2 _ 4096).1 < 4096
      rw [hone]
      decide
  · rw [hs0]
    rfl
  · rw [hs0]
    decide +kernel

theorem threadCaller_starts : ∃ tf s n,
    do_execve eightPages threadFiles threadCaller 0#32 1 0x80001000#32 = some (.starts tf s n) := by
  obtain ⟨c, hc, hmm, hstr⟩ := namedMemory_copied
  have hname : execName threadFiles threadCaller 0#32 = (true, namedMemory, none) := rfl
  have hcheck : user_mem_check none 0x80001000#32 (4#32 * BitVec.ofNat 32 1) false = (true, none) := by
    decide +kernel
  have hptr : argvAt namedMemory 0x80001000#32 0 = 0x80002000#32 := by decide +kernel
  have hk : copy_kargv threadFiles.kmalloc namedMemory none (1 : Int).toNat 0x80001000#32 =
      ⟨0#32, c.mem, none, [0x80005000#32]⟩ := by
    have hone : (1 : Int).toNat = 1 := rfl
    unfold copy_kargv
    rw [hone, hcheck]
    show (match copy_string namedMemory none 0x80005000#32 (argvAt namedMemory 0x80001000#32 0)
      4096#32 with
      | (false, s) => _
      | (true, s) => _ : Kargv) = _
    rw [hptr, hc]
    simp only [copyArgs, hmm]
    rfl
  have hruns : running (load_icode eightPages smallSegment (some 0) 0#32 [[0x61#8]] emptyMemory 1)
      = true := by
    decide +kernel
  unfold running at hruns
  split at hruns
  · next tf s he =>
    have hargc : (1 : Int) ≤ 1 ∧ (1 : Int) ≤ EXEC_MAX_ARG_NUM := by decide
    have hfd : (2#32 : Word).msb = false := by decide
    have hload : load_icode eightPages smallSegment (some 0) 0#32
        [stringAt c.mem 0x80005000#32 EXEC_MAX_ARG_LEN] emptyMemory 1 = some (.runs tf s) := by
      rw [hstr]
      exact he
    exact ⟨tf, do_execve_starts hargc hname hk rfl hfd rfl hload⟩
  · cases hruns

theorem do_execve_unsafe_thread : ∃ tf s n,
    do_execve eightPages threadFiles threadCaller 0#32 1 0x80001000#32 = some (.starts tf s n) ∧
      ¬ ArgsSafe tf s (passedArgs threadCaller 1 0x80001000#32) := by
  obtain ⟨tf, s, n, h⟩ := threadCaller_starts
  exact ⟨tf, s, n, h, do_execve_unsafe eightPages threadFiles threadCaller 0#32 1 0x80001000#32 tf s n h
    (passedArgs threadCaller 1 0x80001000#32)⟩

/-- The program of the thread starts with `sp = 0x80000000`, and its one argument is below. -/
theorem do_execve_below : ¬ ∀ (A : Allocator) (E : Files) (p : Caller) (name : Word) (argc : Int)
    (argv : Word) (tf : trap.Trapframe) (s : Loader) (n : List Byte),
    do_execve A E p name argc argv = some (.starts tf s n) →
      ArgsSafe tf s (passedArgs p argc argv) := by
  intro h
  obtain ⟨tf, s, n, hs⟩ := threadCaller_starts
  obtain ⟨hpos, hmax, elf, htf⟩ := do_execve_tf hs
  have hsafe := h eightPages threadFiles threadCaller 0#32 1 0x80001000#32 tf s n hs
  rw [htf] at hsafe
  exact not_argsSafe elf threadFiles.status hpos hmax s _ hsafe

end nehcpu.kernel.frames
