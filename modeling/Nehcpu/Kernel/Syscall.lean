-- The system calls of `syscall.c`: the table, what each entry takes from the registers of the trap
-- frame, and what becomes of a number that has no entry.
import Nehcpu.Kernel.Process
import Nehcpu.Lib.Fallible

namespace nehcpu.kernel.trap

open cpu hiding Except

variable {σ : Type}

/-! ## The state -/

abbrev MIPS_REG_V0 : Nat := 1
abbrev MIPS_REG_A0 : Nat := 3
abbrev MIPS_REG_A1 : Nat := 4
abbrev MIPS_REG_A2 : Nat := 5
abbrev MIPS_REG_A3 : Nat := 6
abbrev MIPS_REG_SP : Nat := 28

/-- `struct trapframe`, with `tf_regs` by index. -/
structure Trapframe where
  tf_vaddr : Word
  tf_status : Word
  tf_cause : Word
  tf_regs : Nat → Word
  tf_epc : Word

/-- The processes with their memory, the frame `current->tf`, and `rest` for what only the functions
of other files use. -/
structure Sys (σ : Type) where
  kern : Kernel
  tf : Trapframe
  ticks : Word
  check_mm_struct : Option Mm
  rest : σ

def Sys.setReg (s : Sys σ) (i : Nat) (v : Word) : Sys σ :=
  { s with tf := { s.tf with tf_regs := fun j => if j = i then v else s.tf.tf_regs j } }

@[simp] theorem Sys.setReg_kern (s : Sys σ) (i : Nat) (v : Word) :
    (s.setReg i v).kern = s.kern := rfl

/-- Why a function does not come back: the process has ended, with the processes before and after
that, or the machine stands still. -/
inductive Stop
  | exited (error_code : Word) (before after : Kernel)
  | panic (msg : String)

/-! ## `do_exit` -/

abbrev idleproc : Nat := 0
abbrev initproc : Nat := 1

abbrev E_KILLED : Word := 9#32

/-- `do_exit` of the current process. -/
def do_exit (k : Kernel) (error_code : Word) : Stop :=
  if k.current = idleproc then .panic "idleproc exit.\n"
  else if k.current = initproc then .panic "initproc exit.\n"
  else
    match (k.procs k.current).bind k.exit with
    | none => .panic "assertion failed"
    | some after => .exited error_code k after

/-! ## The table -/

/-- The functions of other files that the system calls and the interrupts come to. A system call
comes back with what it returns, or it stops. An interrupt has no process to end: it comes back, or
it panics with a message. -/
structure Calls (σ : Type) where
  run_timer_list : Sys σ → Except String (Sys σ)
  serial_int_handler : Sys σ → Except String (Sys σ)
  do_fork : (clone_flags stack : Word) → Sys σ → Except Stop (Word × Sys σ)
  do_wait : (pid code_store : Word) → Sys σ → Except Stop (Word × Sys σ)
  do_execve : (name argc argv : Word) → Sys σ → Except Stop (Word × Sys σ)
  do_yield : Sys σ → Except Stop (Word × Sys σ)
  do_kill : (pid : Word) → Sys σ → Except Stop (Word × Sys σ)
  do_sleep : (time : Word) → Sys σ → Except Stop (Word × Sys σ)
  cputchar : (c : Word) → Sys σ → Except Stop (Sys σ)
  print_pgdir : Sys σ → Except Stop (Sys σ)
  sysfile_open : (path open_flags : Word) → Sys σ → Except Stop (Word × Sys σ)
  sysfile_close : (fd : Word) → Sys σ → Except Stop (Word × Sys σ)
  sysfile_read : (fd base len : Word) → Sys σ → Except Stop (Word × Sys σ)
  sysfile_write : (fd base len : Word) → Sys σ → Except Stop (Word × Sys σ)
  sysfile_seek : (fd pos whence : Word) → Sys σ → Except Stop (Word × Sys σ)
  sysfile_fstat : (fd stat : Word) → Sys σ → Except Stop (Word × Sys σ)
  sysfile_fsync : (fd : Word) → Sys σ → Except Stop (Word × Sys σ)
  sysfile_getcwd : (buf len : Word) → Sys σ → Except Stop (Word × Sys σ)
  sysfile_getdirentry : (fd direntp : Word) → Sys σ → Except Stop (Word × Sys σ)
  sysfile_dup : (fd1 fd2 : Word) → Sys σ → Except Stop (Word × Sys σ)

/-- An entry of the table. -/
abbrev Handler (σ : Type) := (Nat → Word) → Sys σ → Except Stop (Word × Sys σ)

section

variable (C : Calls σ)

def sys_exit : Handler σ := fun arg s => .error (do_exit s.kern (arg 0))

def sys_fork : Handler σ := fun _ s => C.do_fork 0#32 (s.tf.tf_regs MIPS_REG_SP) s

def sys_wait : Handler σ := fun arg s => C.do_wait (arg 0) (arg 1) s

def sys_exec : Handler σ := fun arg s => C.do_execve (arg 0) (arg 1) (arg 2) s

def sys_yield : Handler σ := fun _ s => C.do_yield s

def sys_kill : Handler σ := fun arg s => C.do_kill (arg 0) s

def sys_getpid : Handler σ := fun _ s => .ok (BitVec.ofNat 32 s.kern.current, s)

def sys_putc : Handler σ := fun arg s => do
  let s ← C.cputchar (arg 0) s
  pure (0#32, s)

def sys_pgdir : Handler σ := fun _ s => do
  let s ← C.print_pgdir s
  pure (0#32, s)

def sys_gettime : Handler σ := fun _ s => .ok (s.ticks, s)

def sys_sleep : Handler σ := fun arg s => C.do_sleep (arg 0) s

def sys_open : Handler σ := fun arg s => C.sysfile_open (arg 0) (arg 1) s

def sys_close : Handler σ := fun arg s => C.sysfile_close (arg 0) s

def sys_read : Handler σ := fun arg s => C.sysfile_read (arg 0) (arg 1) (arg 2) s

def sys_write : Handler σ := fun arg s => C.sysfile_write (arg 0) (arg 1) (arg 2) s

def sys_seek : Handler σ := fun arg s => C.sysfile_seek (arg 0) (arg 1) (arg 2) s

def sys_fstat : Handler σ := fun arg s => C.sysfile_fstat (arg 0) (arg 1) s

def sys_fsync : Handler σ := fun arg s => C.sysfile_fsync (arg 0) s

def sys_getcwd : Handler σ := fun arg s => C.sysfile_getcwd (arg 0) (arg 1) s

def sys_getdirentry : Handler σ := fun arg s => C.sysfile_getdirentry (arg 0) (arg 1) s

def sys_dup : Handler σ := fun arg s => C.sysfile_dup (arg 0) (arg 1) s

abbrev SYSCALL_BASE : Word := 0x80#32

/-- The entries of `syscalls` with their numbers. All others are null. -/
def syscalls : List (Nat × Handler σ) :=
  [(1, sys_exit), (2, sys_fork C), (3, sys_wait C), (4, sys_exec C), (10, sys_yield C),
    (12, sys_kill C), (18, sys_getpid), (30, sys_putc C), (31, sys_pgdir C), (17, sys_gettime),
    (11, sys_sleep C), (100, sys_open C), (101, sys_close C), (102, sys_read C),
    (103, sys_write C), (104, sys_seek C), (110, sys_fstat C), (111, sys_fsync C),
    (121, sys_getcwd C), (128, sys_getdirentry C), (130, sys_dup C)]

abbrev NUM_SYSCALLS : Nat := 131

/-- The number that the frame asks for. -/
def Trapframe.num (tf : Trapframe) : Word := tf.tf_regs MIPS_REG_V0 - SYSCALL_BASE

/-- The arguments, from the registers `a0` to `a3`. -/
def Trapframe.arg (tf : Trapframe) : Nat → Word
  | 0 => tf.tf_regs MIPS_REG_A0
  | 1 => tf.tf_regs MIPS_REG_A1
  | 2 => tf.tf_regs MIPS_REG_A2
  | _ => tf.tf_regs MIPS_REG_A3

/-- The entry for a number, which is an `int` in the first comparison. -/
def entryOf (num : Word) : Option (Handler σ) :=
  if 0 ≤ num.toInt ∧ num.toNat < NUM_SYSCALLS then (syscalls C).lookup num.toNat else none

/-- `syscall` -/
def syscall (s : Sys σ) : Except Stop (Sys σ) :=
  match entryOf C s.tf.num with
  | some entry => do
    let (ret, s) ← entry s.tf.arg s
    pure (s.setReg MIPS_REG_V0 ret)
  | none => .error (.panic "undefined syscall %d, pid = %d, name = %s.\n")

end

end nehcpu.kernel.trap
