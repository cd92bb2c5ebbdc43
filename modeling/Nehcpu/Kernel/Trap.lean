-- The traps of `trap.c` that a program in user mode takes: which of them go back to it, which of them
-- end it, and which of them stop the machine.
import Nehcpu.Kernel.Coherence
import Nehcpu.Kernel.Syscall

namespace nehcpu.kernel.trap

open fallible
open cpu hiding Except

variable {σ : Type}

/-! ## The code -/

abbrev KSU_USER : Word := 0x00000010#32

abbrev CAUSEB_EXCCODE : Nat := 2
abbrev CAUSEF_EXCCODE : Word := 31#32 <<< 2
abbrev CAUSEB_IP : Nat := 8

abbrev EX_IRQ : Nat := 0
abbrev EX_MOD : Nat := 1
abbrev EX_TLBL : Nat := 2
abbrev EX_TLBS : Nat := 3
abbrev EX_ADEL : Nat := 4
abbrev EX_ADES : Nat := 5
abbrev EX_SYS : Nat := 8
abbrev EX_RI : Nat := 10
abbrev EX_CPU : Nat := 11
abbrev EX_OVF : Nat := 12

abbrev COM1_IRQ : Nat := 4
abbrev TIMER0_IRQ : Nat := 7

def GET_CAUSE_EXCODE (x : Word) : Nat := ((x &&& CAUSEF_EXCCODE) >>> CAUSEB_EXCCODE).toNat

def trap_in_kernel (tf : Trapframe) : Bool := tf.tf_status &&& KSU_USER == 0#32

def clock_int_handler (C : Calls σ) (s : Sys σ) : Except String (Sys σ) :=
  C.run_timer_list { s with ticks := s.ticks + 1#32 }

/-- The line is up in the frame. -/
def Trapframe.pending (tf : Trapframe) (i : Nat) : Bool :=
  tf.tf_cause &&& (1#32 <<< (CAUSEB_IP + i)) != 0#32

/-- The `switch` of `interrupt_handler`. -/
def serviceLine (C : Calls σ) (i : Nat) (s : Sys σ) : Except String (Sys σ) :=
  if i = TIMER0_IRQ then clock_int_handler C s
  else if i = COM1_IRQ then C.serial_int_handler s
  else .error "Unknown interrupt!"

/-- The loop of `interrupt_handler`, over the lines that are left. -/
def interruptLoop (C : Calls σ) (tf : Trapframe) : List Nat → Sys σ → Except String (Sys σ)
  | [], s => .ok s
  | i :: is, s => (if tf.pending i then serviceLine C i s else .ok s) >>= interruptLoop C tf is

def interrupt_handler (C : Calls σ) (tf : Trapframe) (s : Sys σ) : Except String (Sys σ) :=
  interruptLoop C tf (List.range 8) s

/-- `pgfault_handler`. Without a memory no area is found. The flag is that of `do_pgfault`. -/
def pgfault_handler (a : FaultPages) (s : Sys σ) (addr : Word) (error_code : Nat) :
    Except Stop (Bool × Sys σ) :=
  match s.check_mm_struct with
  | some mm =>
    if s.kern.current = idleproc then
      let (vm, mm, ok) := do_pgfault a s.kern.vm mm error_code addr
      .ok (ok, { s with kern := { s.kern with vm := vm }, check_mm_struct := some mm })
    else .error (.panic "assertion failed: current == idleproc")
  | none =>
    match s.kern.procs s.kern.current with
    | none => .error (.panic "unhandled page fault.\n")
    | some p =>
      match p.mm with
      | none => .ok (false, s)
      | some mm =>
        let (vm, mm, ok) := do_pgfault a s.kern.vm mm error_code addr
        .ok (ok, { s with kern :=
          { s.kern with vm := vm }.setProc s.kern.current (some { p with mm := some mm }) })

/-- The end of `handle_tlbmiss`, with the flag `ret == 0`. -/
def missDone (r : Bool × Sys σ) : Except Stop (Sys σ) :=
  if r.1 then .ok r.2
  else if trap_in_kernel r.2.tf then .error (.panic "unhandled pgfault")
  else .error (do_exit r.2.kern (-E_KILLED))

/-- `handle_tlbmiss`, with the entry that the refill replaces. -/
def handle_tlbmiss (a : FaultPages) (index : BitVec 4) (s : Sys σ) (write : Bool) :
    Except Stop (Sys σ) :=
  let vm := s.kern.vm
  let badaddr := s.tf.tf_vaddr
  match vm.pgdirs vm.current_pgdir (PDX badaddr) with
  | none => pgfault_handler a s badaddr (get_error_code write 0#32) >>= missDone
  | some table =>
    let pte := table (PTX badaddr)
    if pte = 0#32 then pgfault_handler a s badaddr (get_error_code write pte) >>= missDone
    else if trap_in_kernel s.tf = false ∧
        (ptep_u_read pte = false ∨ (write = true ∧ ptep_u_write pte = false)) then
      missDone (false, s)
    else
      .ok { s with kern := { s.kern with vm := { vm with
        tlb := vm.tlb.next ⟨true, index, (tlb_refill badaddr table (PTX badaddr)).entry⟩ } } }

/-- The arm of the exceptions that end a program and that the kernel must not make. -/
def killed (msg : String) (s : Sys σ) : Except Stop (Sys σ) :=
  if trap_in_kernel s.tf then .error (.panic msg) else .error (do_exit s.kern (-E_KILLED))

/-- `trap_dispatch`, with what the allocator gives to a page fault and the entry that a refill
replaces. -/
def trap_dispatch (C : Calls σ) (a : FaultPages) (index : BitVec 4) (s : Sys σ) :
    Except Stop (Sys σ) :=
  let code := GET_CAUSE_EXCODE s.tf.tf_cause
  if code = EX_IRQ then (interrupt_handler C s.tf s).mapError .panic
  else if code = EX_TLBL then handle_tlbmiss a index s false
  else if code = EX_TLBS then handle_tlbmiss a index s true
  else if code = EX_ADEL ∨ code = EX_ADES then
    -- the `do_exit` of the second branch comes after its panic
    if trap_in_kernel s.tf then .error (.panic "Alignment Error")
    else .error (.panic "Cannot access kernel in user mode")
  else if code = EX_SYS then
    syscall C { s with tf := { s.tf with tf_epc := s.tf.tf_epc + 4#32 } }
  else if code = EX_RI then killed "Do NOT use reserved instruction!" s
  else if code = EX_CPU then killed "Cpu exception should not occur in kernel mode!" s
  else if code = EX_OVF then killed "Overflow exception occur in kernel mode!" s
  else .error (.panic "Unhandled Exception")

/-! ## The end of a process -/

/-- The current process has ended and given its memory back, and no other process is touched. -/
structure Terminates (before after : Kernel) : Prop where
  zombie : ∃ p, after.procs before.current = some p ∧ p.zombie = true ∧ p.mm = none
  others : ∀ pid, pid ≠ before.current → after.procs pid = before.procs pid

/-- A program runs: a process with a memory of user areas, after the boot. -/
structure UserProcess (s : Sys σ) (p : Proc) (mm : Mm) : Prop where
  running : s.kern.procs s.kern.current = some p
  memory : p.mm = some mm
  areas : ∀ vma ∈ mm.mmap_list, VmaOk vma
  notIdle : s.kern.current ≠ idleproc
  notInit : s.kern.current ≠ initproc
  booted : s.check_mm_struct = none

theorem unmap_range_some (vm : Vm) (pgdir : Nat) {vma : Vma} (h : VmaOk vma) :
    ∃ vm', unmap_range vm pgdir vma.vm_start vma.vm_end = some vm' := by
  unfold unmap_range
  rw [if_pos ⟨h.start, h.stop, h.user⟩]
  exact ⟨_, rfl⟩

theorem exit_range_some (vm : Vm) (pgdir : Nat) {vma : Vma} (h : VmaOk vma) :
    ∃ vm', exit_range vm pgdir vma.vm_start vma.vm_end = some vm' := by
  unfold exit_range
  rw [if_pos ⟨h.start, h.stop, h.user⟩]
  exact ⟨_, rfl⟩

/-- A loop over areas that fails at none of them comes to its end. -/
theorem foldlM_some {f : Vm → Vma → Option Vm} {vmas : List Vma}
    (h : ∀ vm, ∀ vma ∈ vmas, ∃ vm', f vm vma = some vm') (vm : Vm) :
    ∃ vm', vmas.foldlM f vm = some vm' := by
  induction vmas generalizing vm with
  | nil => exact ⟨vm, rfl⟩
  | cons vma vmas ih =>
    obtain ⟨vm1, h1⟩ := h vm vma List.mem_cons_self
    obtain ⟨vm2, h2⟩ := ih (fun vm v hv => h vm v (List.mem_cons_of_mem vma hv)) vm1
    refine ⟨vm2, ?_⟩
    rw [List.foldlM_cons, h1]
    exact h2

/-- The memory of a process goes without a failed assertion. -/
theorem leave_mm_some (vm : Vm) (boot_pgdir : Nat) {mm : Mm}
    (h : ∀ vma ∈ mm.mmap_list, VmaOk vma) : ∃ vm', leave_mm vm boot_pgdir mm = some vm' := by
  unfold leave_mm
  simp only
  by_cases hc : mm.mm_count - 1 = 0
  · obtain ⟨vm1, h1⟩ := foldlM_some
      (fun vm vma hv => unmap_range_some vm mm.pgdir (h vma hv)) (lcr3 vm boot_pgdir)
    obtain ⟨vm2, h2⟩ := foldlM_some
      (fun vm vma hv => exit_range_some vm mm.pgdir (h vma hv)) vm1
    refine ⟨put_pgdir vm2 mm, ?_⟩
    rw [if_pos hc]
    unfold exit_mmap
    rw [if_pos hc, h1, Option.bind_some, h2]
    rfl
  · exact ⟨_, if_neg hc⟩

theorem UserProcess.exit {s : Sys σ} {p : Proc} {mm : Mm} (h : UserProcess s p mm) :
    ∃ after, s.kern.exit p = some after ∧ Terminates s.kern after := by
  obtain ⟨vm', hvm⟩ := leave_mm_some s.kern.vm s.kern.boot_pgdir h.areas
  unfold Kernel.exit
  rw [h.memory]
  simp only [hvm, Option.map_some]
  refine ⟨_, rfl, ⟨_, if_pos rfl, rfl, rfl⟩, ?_⟩
  intro pid hpid
  exact if_neg hpid

/-! ## What a trap may come to -/

/-- The process of the state has ended, alone, and there was no panic. -/
def StopOk (s : Sys σ) : Stop → Prop
  | .exited _ before after => before.current = s.kern.current ∧ Terminates before after
  | .panic _ => False

/-- The trap goes back to the process that took it, or it ends this process and no other. -/
def Survives (s : Sys σ) (x : Except Stop (Sys σ)) : Prop :=
  Ends (fun s' => s'.kern.current = s.kern.current) (StopOk s) x

theorem do_exit_ok {s : Sys σ} {p : Proc} {mm : Mm} (h : UserProcess s p mm) (error_code : Word) :
    StopOk s (do_exit s.kern error_code) := by
  obtain ⟨after, hx, ht⟩ := h.exit
  unfold do_exit
  rw [if_neg h.notIdle, if_neg h.notInit, h.running, Option.bind_some, hx]
  exact ⟨rfl, ht⟩

theorem killed_survives {s : Sys σ} {p : Proc} {mm : Mm} (h : UserProcess s p mm)
    (hu : trap_in_kernel s.tf = false) (msg : String) : Survives s (killed msg s) := by
  unfold killed
  rw [hu, if_neg Bool.false_ne_true]
  exact do_exit_ok h _

/-! ## TLB misses -/

/-- A page fault changes the cache of the memory at most. -/
theorem do_pgfault_mm (a : FaultPages) (vm : Vm) (mm : Mm) (error_code : Nat) (addr : Word) :
    (do_pgfault a vm mm error_code addr).2.1 = (find_vma mm addr).2 := by
  unfold do_pgfault
  simp only
  split
  · rfl
  · split_ifs
    · rfl
    · split
      · rfl
      · split_ifs
        · split
          · rfl
          · split <;> rfl
        · rfl
    · split
      · rfl
      · split_ifs
        · split
          · rfl
          · split <;> rfl
        · rfl

theorem find_vma_list (mm : Mm) (addr : Word) :
    (find_vma mm addr).2.mmap_list = mm.mmap_list := by
  unfold find_vma
  simp only
  split_ifs <;> rfl

/-- The handler of page faults leaves the process as it is, but for its page table. -/
theorem pgfault_handler_ends {s : Sys σ} {p : Proc} {mm : Mm} (h : UserProcess s p mm)
    (a : FaultPages) (addr : Word) (error_code : Nat) :
    Ends (fun r => r.2.tf = s.tf ∧ r.2.kern.current = s.kern.current ∧
      ∃ p mm, UserProcess r.2 p mm) (fun _ => False) (pgfault_handler a s addr error_code) := by
  unfold pgfault_handler
  rw [h.booted]
  simp only
  rw [h.running]
  simp only
  rw [h.memory]
  refine ⟨rfl, rfl, _, _, ⟨if_pos rfl, rfl, ?_, h.notIdle, h.notInit, rfl⟩⟩
  intro vma hv
  rw [do_pgfault_mm, find_vma_list] at hv
  exact h.areas vma hv

theorem missDone_survives {s : Sys σ} {r : Bool × Sys σ} (hu : trap_in_kernel s.tf = false)
    (h : r.2.tf = s.tf ∧ r.2.kern.current = s.kern.current ∧ ∃ p mm, UserProcess r.2 p mm) :
    Survives s (missDone r) := by
  obtain ⟨htf, hcur, p, mm, hr⟩ := h
  unfold missDone
  rw [htf, hu]
  cases r.1
  · have hx := do_exit_ok hr (-E_KILLED)
    unfold StopOk at hx
    rw [hcur] at hx
    exact hx
  · exact hcur

/-- With every page table and every list of areas a TLB miss is served, or it ends the process. -/
theorem handle_tlbmiss_survives {s : Sys σ} {p : Proc} {mm : Mm} (h : UserProcess s p mm)
    (hu : trap_in_kernel s.tf = false) (a : FaultPages) (index : BitVec 4) (write : Bool) :
    Survives s (handle_tlbmiss a index s write) := by
  have hfault (error_code : Nat) :
      Survives s (pgfault_handler a s s.tf.tf_vaddr error_code >>= missDone) := by
    apply (ends_bind _ _).2
    exact (pgfault_handler_ends h a s.tf.tf_vaddr error_code).mono
      (fun r hr => missDone_survives hu hr) (fun _ hf => hf.elim)
  unfold handle_tlbmiss
  simp only
  split
  · exact hfault _
  · split_ifs
    · exact hfault _
    · exact missDone_survives hu ⟨rfl, rfl, p, mm, h⟩
    · rfl

/-- In every state that the kernel comes to since boot the areas are as they should be. -/
theorem UserProcess.of_inv {s : Sys σ} {p : Proc} {mm : Mm} (h : Inv s.kern)
    (hp : s.kern.procs s.kern.current = some p) (hmm : p.mm = some mm)
    (h0 : s.kern.current ≠ idleproc) (h1 : s.kern.current ≠ initproc)
    (hb : s.check_mm_struct = none) : UserProcess s p mm :=
  ⟨hp, hmm, (h.areas _ p mm hp (Or.inl hmm)).areas, h0, h1, hb⟩

/-- A step of the kernel that ends the same way. -/
def Agrees (after : Option Kernel) (x : Except Stop (Sys σ)) : Prop :=
  Ends (fun s' => after = some s'.kern)
    (fun | .exited _ _ k => after = some k | .panic _ => False) x

theorem missDone_agrees {r : Bool × Sys σ} {p : Proc} {mm : Mm} (h : UserProcess r.2 p mm)
    (hu : trap_in_kernel r.2.tf = false) :
    Agrees (if r.1 then some r.2.kern else r.2.kern.exit p) (missDone r) := by
  unfold missDone Agrees
  cases r.1
  · obtain ⟨after, hx, -⟩ := h.exit
    rw [hu, if_neg Bool.false_ne_true, if_neg Bool.false_ne_true, if_neg Bool.false_ne_true]
    unfold do_exit
    rw [if_neg h.notIdle, if_neg h.notInit, h.running, Option.bind_some, hx]
    exact rfl
  · exact rfl

/-- What the step of a miss makes of what the handler did to the memory. -/
def missAfter (k : Kernel) (p : Proc) (f : Vm × Mm × Bool) : Option Kernel :=
  if f.2.2 then
    some ({ k with vm := f.1 }.setProc k.current (some { p with mm := some f.2.1 }))
  else ({ k with vm := f.1 } : Kernel).exit { p with mm := some f.2.1 }

theorem userStep_tlbmiss (k : Kernel) (p : Proc) (mm : Mm) (badaddr : Word) (write : Bool)
    (held_index index : BitVec 4) (a : FaultPages)
    (hf : tlbFault k.vm.tlb held_index badaddr write = true) :
    k.userStep p mm (.tlbmiss badaddr write false held_index index a) =
      missAfter k p (nehcpu.kernel.handle_tlbmiss a k.vm mm badaddr write false index) :=
  if_pos hf

theorem pgfault_agrees {s : Sys σ} {p : Proc} {mm : Mm} (h : UserProcess s p mm)
    (hu : trap_in_kernel s.tf = false) (a : FaultPages) (addr : Word) (error_code : Nat) :
    Agrees (missAfter s.kern p (do_pgfault a s.kern.vm mm error_code addr))
      (pgfault_handler a s addr error_code >>= missDone) := by
  have hareas : ∀ vma ∈ (do_pgfault a s.kern.vm mm error_code addr).2.1.mmap_list, VmaOk vma := by
    rw [do_pgfault_mm, find_vma_list]
    exact h.areas
  unfold pgfault_handler missAfter
  rw [h.booted]
  simp only
  rw [h.running]
  simp only
  rw [h.memory]
  simp only
  generalize do_pgfault a s.kern.vm mm error_code addr = f at hareas ⊢
  rw [← exit_setProc { s.kern with vm := f.1 } { p with mm := some f.2.1 }
    (some { p with mm := some f.2.1 })]
  have hr : UserProcess { s with
      kern := { s.kern with vm := f.1 }.setProc s.kern.current (some { p with mm := some f.2.1 })
      check_mm_struct := none } { p with mm := some f.2.1 } f.2.1 :=
    ⟨if_pos rfl, rfl, hareas, h.notIdle, h.notInit, rfl⟩
  exact @missDone_agrees _ (f.2.2, _) _ _ hr hu

/-- The kernel comes out of the trap as the step of the miss leaves it. -/
theorem handle_tlbmiss_agrees {s : Sys σ} {p : Proc} {mm : Mm} (h : UserProcess s p mm)
    (hu : trap_in_kernel s.tf = false) (a : FaultPages) (held_index index : BitVec 4)
    (write : Bool) (hf : tlbFault s.kern.vm.tlb held_index s.tf.tf_vaddr write = true) :
    Agrees (s.kern.userStep p mm (.tlbmiss s.tf.tf_vaddr write false held_index index a))
      (handle_tlbmiss a index s write) := by
  have hp : { p with mm := some mm } = p := by
    rw [← h.memory]
  rw [userStep_tlbmiss _ _ _ _ _ _ _ _ hf]
  unfold handle_tlbmiss nehcpu.kernel.handle_tlbmiss
  simp only
  cases s.kern.vm.pgdirs s.kern.vm.current_pgdir (PDX s.tf.tf_vaddr) with
  | none => exact pgfault_agrees h hu a _ _
  | some table =>
    simp only [hu]
    split_ifs
    · exact pgfault_agrees h hu a _ _
    · unfold missAfter
      rw [hp]
      exact @missDone_agrees _ (false, s) p mm h hu
    · unfold missAfter
      rw [hp]
      exact congrArg some (Kernel.setProc_self h.running)

/-! ## Interrupts -/

/-- The handlers of the two lines that the kernel knows, in the order of the loop. -/
def devices (C : Calls σ) (tf : Trapframe) (s : Sys σ) : Except String (Sys σ) :=
  (if tf.pending COM1_IRQ then C.serial_int_handler s else .ok s) >>= fun s =>
    if tf.pending TIMER0_IRQ then clock_int_handler C s else .ok s

/-- No other line is up. -/
def KnownLines (tf : Trapframe) : Prop :=
  ∀ i < 8, tf.pending i = true → i = COM1_IRQ ∨ i = TIMER0_IRQ

/-- The lines that are up have a handler, and the handlers come back. -/
structure InterruptOk (C : Calls σ) (s : Sys σ) : Prop where
  known : KnownLines s.tf
  handled : Ends (fun s' => s'.kern.current = s.kern.current) (fun _ => False) (devices C s.tf s)

theorem interruptLoop_quiet (C : Calls σ) (tf : Trapframe) {i : Nat} (h : tf.pending i = false)
    (is : List Nat) (s : Sys σ) : interruptLoop C tf (i :: is) s = interruptLoop C tf is s := by
  rw [interruptLoop, h, if_neg Bool.false_ne_true]
  rfl

/-- With no other line up the loop runs the two handlers. -/
theorem interrupt_handler_known (C : Calls σ) {tf : Trapframe} (h : KnownLines tf) (s : Sys σ) :
    interrupt_handler C tf s = devices C tf s := by
  have hquiet : ∀ i < 8, i ≠ COM1_IRQ → i ≠ TIMER0_IRQ → tf.pending i = false := by
    intro i hi h4 h7
    by_contra hp
    rcases h i hi (by simpa using hp) with he | he
    · exact h4 he
    · exact h7 he
  have h0 := hquiet 0 (by decide) (by decide) (by decide)
  have h1 := hquiet 1 (by decide) (by decide) (by decide)
  have h2 := hquiet 2 (by decide) (by decide) (by decide)
  have h3 := hquiet 3 (by decide) (by decide) (by decide)
  have h5 := hquiet 5 (by decide) (by decide) (by decide)
  have h6 := hquiet 6 (by decide) (by decide) (by decide)
  have hr : List.range 8 = [0, 1, 2, 3, 4, 5, 6, 7] := by decide
  unfold interrupt_handler
  rw [hr, interruptLoop_quiet C tf h0, interruptLoop_quiet C tf h1, interruptLoop_quiet C tf h2,
    interruptLoop_quiet C tf h3, interruptLoop]
  unfold devices
  refine bind_congr fun s => ?_
  rw [interruptLoop_quiet C tf h5, interruptLoop_quiet C tf h6, interruptLoop]
  exact bind_pure _

/-- A line that the kernel does not know ends in a panic, whatever the handlers before it do. -/
theorem interruptLoop_unknown (C : Calls σ) {tf : Trapframe} {i : Nat} (hp : tf.pending i = true)
    (h4 : i ≠ COM1_IRQ) (h7 : i ≠ TIMER0_IRQ) {is : List Nat} (hi : i ∈ is) (s : Sys σ) :
    Ends (fun _ => False) (fun _ => True) (interruptLoop C tf is s) := by
  induction is generalizing s with
  | nil => cases hi
  | cons j is ih =>
    rw [interruptLoop]
    apply (ends_bind _ _).2
    rcases List.mem_cons.1 hi with rfl | hi
    · rw [if_pos hp]
      unfold serviceLine
      rw [if_neg h7, if_neg h4]
      trivial
    · cases hx : (if tf.pending j = true then serviceLine C j s else Except.ok s) with
      | ok s' => exact ih hi s'
      | error e => trivial

theorem interrupt_survives_iff (C : Calls σ) (s : Sys σ) :
    Survives s ((interrupt_handler C s.tf s).mapError .panic) ↔ InterruptOk C s := by
  have hpanic (x : Except String (Sys σ)) : Survives s (x.mapError .panic) ↔
      Ends (fun s' => s'.kern.current = s.kern.current) (fun _ => False) x := by
    cases x <;> exact Iff.rfl
  rw [hpanic]
  by_cases hk : KnownLines s.tf
  · rw [interrupt_handler_known C hk]
    exact ⟨fun h => ⟨hk, h⟩, fun h => h.handled⟩
  · refine ⟨fun h => ?_, fun h => absurd h.known hk⟩
    unfold KnownLines at hk
    push Not at hk
    obtain ⟨i, hi, hp, h4, h7⟩ := hk
    have hu := interruptLoop_unknown C hp h4 h7 (List.mem_range.2 hi) s
    unfold interrupt_handler at h
    cases hx : interruptLoop C s.tf (List.range 8) s with
    | ok s' =>
      rw [hx] at hu
      exact hu.elim
    | error e =>
      rw [hx] at h
      exact h.elim

/-! ## System calls -/

/-- The state in which the frame goes on behind the instruction. -/
def Sys.skip (s : Sys σ) : Sys σ := { s with tf := { s.tf with tf_epc := s.tf.tf_epc + 4#32 } }

/-- The number has an entry, and the entry answers: it comes back, or it ends the process. -/
def CallOk (C : Calls σ) (s : Sys σ) : Prop :=
  ∃ entry, entryOf C s.tf.num = some entry ∧
    Ends (fun r => r.2.kern.current = s.kern.current) (StopOk s) (entry s.tf.arg s.skip)

theorem syscall_survives_iff (C : Calls σ) (s : Sys σ) :
    Survives s (syscall C s.skip) ↔ CallOk C s := by
  have hnum : s.skip.tf.num = s.tf.num := rfl
  have harg : s.skip.tf.arg = s.tf.arg := rfl
  unfold syscall CallOk
  rw [hnum, harg]
  cases entryOf C s.tf.num with
  | none =>
    refine ⟨fun h => h.elim, ?_⟩
    rintro ⟨entry, he, -⟩
    cases he
  | some entry =>
    have hx : Survives s (entry s.tf.arg s.skip >>= fun r => pure (r.2.setReg MIPS_REG_V0 r.1)) ↔
        Ends (fun r => r.2.kern.current = s.kern.current) (StopOk s) (entry s.tf.arg s.skip) :=
      ends_bind _ _
    refine ⟨fun h => ⟨entry, rfl, hx.1 h⟩, ?_⟩
    rintro ⟨entry', he, h⟩
    obtain rfl := Option.some_inj.1 he
    exact hx.2 h

/-! ## The frame that the CPU leaves -/

/-- The interrupt lines of the board: `intrpt`. -/
def intrpt (timer_int uart_int : Bool) : BitVec 8 :=
  BitVec.ofBool timer_int ++ 0#2 ++ BitVec.ofBool uart_int ++ 0#4

/-- The frame that `common_exception` saves. -/
def savedFrame (c : Cp0) (int_i : BitVec 8) (regs : Nat → Word) : Trapframe where
  tf_vaddr := cp0_data_o 0#32 c int_i CP0_REG_BADVADDR
  tf_status := cp0_data_o 0#32 c int_i CP0_REG_STATUS
  tf_cause := cp0_data_o 0#32 c int_i CP0_REG_CAUSE
  tf_regs := regs
  tf_epc := cp0_data_o 0#32 c int_i CP0_REG_EPC

/-- `cause_o[6: 2]` for an exception that goes to the kernel. -/
def excCode : cpu.Except → Option (BitVec 5)
  | .none => none
  | .interrupt => some 0#5
  | .syscall => some 8#5
  | .instInvalid => some 10#5
  | .adel => some 4#5
  | .ades => some 5#5
  | .eret => none
  | .tlblInst => some 2#5
  | .tlbMod => some 1#5
  | .tlblData => some 2#5
  | .tlbs => some 3#5

theorem GET_CAUSE_EXCODE_eq (x : Word) : GET_CAUSE_EXCODE x = (x.extractLsb' 2 5).toNat := by
  have hx : (x &&& CAUSEF_EXCCODE) >>> CAUSEB_EXCCODE = (x.extractLsb' 2 5).setWidth 32 := by
    have hm : ∀ i < 32, CAUSEF_EXCCODE.getLsbD (2 + i) = decide (i < 5) := by decide
    apply BitVec.eq_of_getLsbD_eq
    intro i hi
    rw [BitVec.getLsbD_ushiftRight, BitVec.getLsbD_and, hm i hi]
    simp [hi, Bool.and_comm]
  unfold GET_CAUSE_EXCODE
  rw [hx, BitVec.toNat_setWidth]
  exact Nat.mod_eq_of_lt (lt_of_lt_of_le (BitVec.isLt _) (by decide))

theorem excode_of_cause (c : Cp0) (int_i : BitVec 8) (regs : Nat → Word) :
    GET_CAUSE_EXCODE (savedFrame c int_i regs).tf_cause = (c.cause_o.extractLsb' 2 5).toNat := by
  have hc : (savedFrame c int_i regs).tf_cause = c.cause_o.extractLsb' 31 1 ++ 0#7 ++
      c.cause_o.extractLsb' 23 1 ++ 0#7 ++ int_i ++ 0#1 ++ c.cause_o.extractLsb' 2 5 ++ 0#2 := rfl
  rw [GET_CAUSE_EXCODE_eq, hc, BitVec.extractLsb'_append_eq_of_le (by decide)]
  rw [BitVec.extractLsb'_append_eq_right]

/-- The code of the exception stands in the frame. -/
theorem excode_saved {e : cpu.Except} {code : BitVec 5} (he : excCode e = some code) (c : Cp0)
    (int_i int_i' : BitVec 8) (w : Cp0Write) (x : ExcInfo) (regs : Nat → Word) :
    GET_CAUSE_EXCODE (savedFrame (c.next int_i w e x) int_i' regs).tf_cause = code.toNat := by
  have henter (c : Cp0) (code : BitVec 5) : (c.enter x code).cause_o.extractLsb' 2 5 = code := by
    have hm := extract_maskWrite CAUSE_CODE_MASK (maskWrite CAUSE_BD_MASK c.cause_o
      (if x.is_in_delayslot_i then CAUSE_BD_MASK else ZeroWord)) (0#25 ++ code ++ 0#2) 2 5
      (by decide)
    refine hm.trans ?_
    rw [BitVec.extractLsb'_append_eq_of_le (by decide)]
    exact BitVec.extractLsb'_append_eq_right
  rw [excode_of_cause]
  congr 1
  cases e with
  | none => cases he
  | eret => cases he
  | _ =>
    obtain rfl := Option.some_inj.1 he
    exact henter _ _

theorem pending_eq (tf : Trapframe) {i : Nat} (hi : i < 8) :
    tf.pending i = tf.tf_cause.getLsbD (8 + i) := by
  have hne : BitVec.twoPow 32 (8 + i) ≠ 0#32 := by
    revert i
    decide
  unfold Trapframe.pending
  rw [← BitVec.twoPow_eq, BitVec.and_twoPow]
  cases tf.tf_cause.getLsbD (8 + i)
  · simp
  · simpa using hne

/-- Only the lines of the clock and of the serial port are wired. -/
theorem knownLines_saved (c : Cp0) (timer_int uart_int : Bool) (regs : Nat → Word) :
    KnownLines (savedFrame c (intrpt timer_int uart_int) regs) := by
  intro i hi hp
  have hc : (savedFrame c (intrpt timer_int uart_int) regs).tf_cause.extractLsb' 8 8 =
      intrpt timer_int uart_int := by
    have hs : (savedFrame c (intrpt timer_int uart_int) regs).tf_cause =
        c.cause_o.extractLsb' 31 1 ++ 0#7 ++ c.cause_o.extractLsb' 23 1 ++ 0#7 ++
          intrpt timer_int uart_int ++ 0#1 ++ c.cause_o.extractLsb' 2 5 ++ 0#2 := rfl
    rw [hs, BitVec.extractLsb'_append_eq_of_le (by decide),
      BitVec.extractLsb'_append_eq_of_le (by decide),
      BitVec.extractLsb'_append_eq_of_le (by decide)]
    exact BitVec.extractLsb'_append_eq_right
  have hb : (intrpt timer_int uart_int).getLsbD i = true := by
    rw [← hc, BitVec.getLsbD_extractLsb', ← pending_eq _ hi, hp]
    simpa using hi
  clear hp
  revert hb i
  cases timer_int <;> cases uart_int <;> decide

/-! ## Every trap of a program -/

/-- The kernel has an answer to the trap. -/
def Answered (C : Calls σ) (s : Sys σ) : Prop :=
  let code := GET_CAUSE_EXCODE s.tf.tf_cause
  code = EX_TLBL ∨ code = EX_TLBS ∨ code = EX_RI ∨ code = EX_CPU ∨ code = EX_OVF ∨
    code = EX_IRQ ∧ InterruptOk C s ∨ code = EX_SYS ∧ CallOk C s

/-- The arms of the dispatch, one by one. -/
theorem dispatch_survives_iff (C : Calls σ) (a : FaultPages) (index : BitVec 4) {s : Sys σ}
    {p : Proc} {mm : Mm} (hp : UserProcess s p mm) (hu : trap_in_kernel s.tf = false) :
    Survives s (trap_dispatch C a index s) ↔ Answered C s := by
  unfold trap_dispatch Answered
  simp only
  generalize GET_CAUSE_EXCODE s.tf.tf_cause = code
  by_cases hirq : code = EX_IRQ
  · subst hirq
    rw [if_pos rfl, interrupt_survives_iff]
    simp
  rw [if_neg hirq]
  by_cases hl : code = EX_TLBL
  · subst hl
    rw [if_pos rfl]
    simp [handle_tlbmiss_survives hp hu]
  rw [if_neg hl]
  by_cases hst : code = EX_TLBS
  · subst hst
    rw [if_pos rfl]
    simp [handle_tlbmiss_survives hp hu]
  rw [if_neg hst]
  by_cases had : code = EX_ADEL ∨ code = EX_ADES
  · rw [if_pos had, hu, if_neg Bool.false_ne_true]
    rcases had with rfl | rfl
    · simp [Survives, StopOk]
    · simp [Survives, StopOk]
  rw [if_neg had]
  by_cases hsys : code = EX_SYS
  · subst hsys
    rw [if_pos rfl]
    simp [← syscall_survives_iff, Sys.skip]
  rw [if_neg hsys]
  by_cases hri : code = EX_RI
  · subst hri
    rw [if_pos rfl]
    simp [killed_survives hp hu]
  rw [if_neg hri]
  by_cases hcpu : code = EX_CPU
  · subst hcpu
    rw [if_pos rfl]
    simp [killed_survives hp hu]
  rw [if_neg hcpu]
  by_cases hovf : code = EX_OVF
  · subst hovf
    rw [if_pos rfl]
    simp [killed_survives hp hu]
  rw [if_neg hovf]
  simp [Survives, StopOk, hirq, hl, hst, hsys, hri, hcpu, hovf]

/-- The exceptions of the CPU that the kernel has an answer to. -/
def CpuAnswered (C : Calls σ) (s : Sys σ) : cpu.Except → Prop
  | .tlblInst => True
  | .tlblData => True
  | .tlbs => True
  | .instInvalid => True
  | .interrupt =>
    Ends (fun s' => s'.kern.current = s.kern.current) (fun _ => False) (devices C s.tf s)
  | .syscall => CallOk C s
  | _ => False

theorem answered_saved (C : Calls σ) {s : Sys σ} {e : cpu.Except} {code : BitVec 5}
    (he : excCode e = some code) {c : Cp0} {int_i : BitVec 8} {w : Cp0Write} {x : ExcInfo}
    {timer_int uart_int : Bool} {regs : Nat → Word}
    (hs : s.tf = savedFrame (c.next int_i w e x) (intrpt timer_int uart_int) regs) :
    Answered C s ↔ CpuAnswered C s e := by
  have hcode : GET_CAUSE_EXCODE s.tf.tf_cause = code.toNat := by
    rw [hs]
    exact excode_saved he c int_i _ w x regs
  have hknown : KnownLines s.tf := by
    rw [hs]
    exact knownLines_saved _ _ _ _
  unfold Answered CpuAnswered
  rw [hcode]
  cases e with
  | none => cases he
  | eret => cases he
  | interrupt =>
    obtain rfl := Option.some_inj.1 he
    have hk : InterruptOk C s ↔ Ends (fun s' => s'.kern.current = s.kern.current) (fun _ => False)
        (devices C s.tf s) := ⟨fun h => h.handled, fun h => ⟨hknown, h⟩⟩
    simp [hk]
  | _ =>
    obtain rfl := Option.some_inj.1 he
    simp

/-- A kernel whose calls all come back with zero. -/
def quiet : Calls Unit where
  run_timer_list := .ok
  serial_int_handler := .ok
  do_fork := fun _ _ s => .ok (0#32, s)
  do_wait := fun _ _ s => .ok (0#32, s)
  do_execve := fun _ _ _ s => .ok (0#32, s)
  do_yield := fun s => .ok (0#32, s)
  do_kill := fun _ s => .ok (0#32, s)
  do_sleep := fun _ s => .ok (0#32, s)
  cputchar := fun _ s => .ok s
  print_pgdir := .ok
  sysfile_open := fun _ _ s => .ok (0#32, s)
  sysfile_close := fun _ s => .ok (0#32, s)
  sysfile_read := fun _ _ _ s => .ok (0#32, s)
  sysfile_write := fun _ _ _ s => .ok (0#32, s)
  sysfile_seek := fun _ _ _ s => .ok (0#32, s)
  sysfile_fstat := fun _ _ s => .ok (0#32, s)
  sysfile_fsync := fun _ s => .ok (0#32, s)
  sysfile_getcwd := fun _ _ s => .ok (0#32, s)
  sysfile_getdirentry := fun _ _ s => .ok (0#32, s)
  sysfile_dup := fun _ _ s => .ok (0#32, s)

/-- The memory of one area that can be read and written. -/
def oneArea : Mm :=
  { mm_create 1 with mmap_list := [⟨0x10000000#32, 0x10002000#32, VM_READ ||| VM_WRITE⟩], mm_count := 1 }

def oneProc : Proc := ⟨some oneArea, 1, none, false⟩

/-- Process 2 runs with nothing mapped yet, and takes the exception at the address in user mode. -/
def faults (e : cpu.Except) (addr : Word) : Sys Unit where
  kern := ⟨⟨fun _ => 0, fun _ => .empty, 1, fun _ => true⟩, 0, 2,
    fun pid => if pid = 2 then some oneProc else none⟩
  tf := savedFrame ({ Cp0.reset with status_o := KSU_USER }.next 0#8 ⟨false, 0#5, 0#32⟩ e
    ⟨0x10000000#32, false, addr, addr⟩) 0#8 (fun _ => 0#32)
  ticks := 0#32
  check_mm_struct := none
  rest := ()

theorem faults_process (e : cpu.Except) (addr : Word) :
    UserProcess (faults e addr) oneProc oneArea := by
  refine ⟨rfl, rfl, ?_, (by decide : 2 ≠ idleproc), (by decide : 2 ≠ initproc), rfl⟩
  intro vma hv
  obtain rfl := List.mem_singleton.1 hv
  exact ⟨by decide, by decide, by decide⟩

end nehcpu.kernel.trap
