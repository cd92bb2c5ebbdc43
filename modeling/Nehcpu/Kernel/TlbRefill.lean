-- The refill of the TLB as the CPU runs it. `tlb_replace_random` ends with TLBWR, which `id` does
-- not know: no run comes past it, and the miss stays.
import Nehcpu.Cpu.Precise
import Nehcpu.Cpu.DelaySlots
import Nehcpu.Cpu.TlbFaults
import Nehcpu.Cpu.UserMode
import Nehcpu.Kernel.Process

namespace nehcpu.cpu

open machine

/-! ## What a run executes -/

/-- The instruction in `mem`, when this edge executes it: it moves on to write back, or it is
ERET, which only flushes. -/
def executed (t : Cpu × Order) (i : CpuIn) : List Issued :=
  if leavesMem t.1 i = true ∨ t.1.excepttype = .eret then t.2.mem.head?.toList else []

/-- The instructions that a run executes, in program order. -/
def executedIn (t : Cpu × Order) : List CpuIn → List Issued
  | [] => []
  | i :: is => executed t i ++ executedIn (follow t i) is

/-- The mark of an invalid instruction goes with the instruction. -/
structure Marked (s : Cpu) (o : Order) : Prop where
  ex : ∀ x before, o.ex = x :: before →
    s.id_ex.ex_excepttype.instInvalid = (decode x.inst).instvalid
  mem : ∀ x before, o.mem = x :: before →
    s.ex_mem.mem_excepttype.instInvalid = (decode x.inst).instvalid

theorem marked_start (regs : RegFile) : Marked (Cpu.reset regs) .start := ⟨nofun, nofun⟩

section

variable {s : Cpu} {o : Order} {i : CpuIn}

theorem marked_of_hold (h : Marked s o) (hf : s.flush = false)
    (hm : s.stallreq_from_mem i = false)
    (hq : s.stallreq_from_id i = true ∨ s.stallreq_from_if i = true) :
    Marked (s.step i) (o.next s i) := by
  obtain ⟨hst, hs⟩ := Cpu.stages_of_hold hf hm hq
  have hmem : (s.step i).ex_mem = s.ex_out i := congrArg Cpu.Stages.ex_mem hs
  rw [o.next_of_hold hf hst]
  constructor
  · intro x before hx
    cases hx
  · intro x before hx
    rw [hmem]
    exact h.ex x before hx

theorem marked_of_run (h : Marked s o) (hf : s.flush = false) (hst : s.stall i = 0b000000#6) :
    Marked (s.step i) (o.next s i) := by
  have hs := Cpu.stages_of_run hf hst
  have hex : (s.step i).id_ex = s.id_out i := congrArg Cpu.Stages.id_ex hs
  have hmem : (s.step i).ex_mem = s.ex_out i := congrArg Cpu.Stages.ex_mem hs
  rw [o.next_of_run hf hst]
  constructor
  · intro x before hx
    rw [hex]
    unfold Order.issue at hx
    split at hx
    · obtain ⟨rfl, -⟩ := List.cons.inj hx
      rfl
    · cases hx
  · intro x before hx
    rw [hmem]
    exact h.ex x before hx

end

theorem marked_step (t : Cpu × Order) (i : CpuIn) (h : Marked t.1 t.2) :
    Marked (follow t i).1 (follow t i).2 := by
  obtain ⟨s, o⟩ := t
  rcases edge_cases s i with hf | ⟨hf, hm⟩ | ⟨hf, hm, hq⟩ | ⟨hf, hst⟩
  · have hn : o.next s i = .start := o.next_of_flush hf
    simp only [follow, hn]
    exact ⟨nofun, nofun⟩
  · have hs := Cpu.stages_of_memStall hf hm
    have hex : (s.step i).id_ex = s.id_ex := congrArg Cpu.Stages.id_ex hs
    have hmem : (s.step i).ex_mem = s.ex_mem := congrArg Cpu.Stages.ex_mem hs
    have hn : o.next s i = o := o.next_of_memStall hf hm
    simp only [follow, hn]
    exact ⟨fun x before hx => hex ▸ h.ex x before hx, fun x before hx => hmem ▸ h.mem x before hx⟩
  · exact marked_of_hold h hf hm hq
  · exact marked_of_run h hf hst

/-- An instruction with the mark, and with an address, raises an exception. -/
theorem rejected_of_mark {m : ExMem} {f : MmuFlags} {cause status : Word}
    (hpc : m.mem_current_inst_addr ≠ ZeroWord) (h : m.mem_excepttype.instInvalid = true) :
    excepttype_o m f cause status ≠ .none ∧ excepttype_o m f cause status ≠ .eret := by
  unfold excepttype_o
  rw [if_pos hpc]
  simp only [h, if_true]
  split_ifs <;> simp

/-- What an edge executes has no mark. -/
theorem valid_of_executed {t : Cpu × Order} (ht : Tracks t.1 t.2) (hm : Marked t.1 t.2)
    {i : CpuIn} {x : Issued} (hx : x ∈ executed t i) (hpc : x.pc ≠ ZeroWord) :
    (decode x.inst).instvalid = false := by
  unfold executed at hx
  split at hx
  · next hgo =>
    rw [Option.mem_toList] at hx
    obtain ⟨before, hl⟩ := List.head?_eq_some_iff.1 hx
    by_contra hinv
    rw [Bool.not_eq_false, ← hm.mem x before hl] at hinv
    obtain ⟨haddr, -, -⟩ := ht.mem x before hl
    have haddr' : t.1.ex_mem.mem_current_inst_addr ≠ ZeroWord := by
      rw [haddr]
      exact hpc
    obtain ⟨hnone, heret⟩ : t.1.excepttype ≠ .none ∧ t.1.excepttype ≠ .eret :=
      rejected_of_mark haddr' hinv
    obtain hleaves | hret := hgo
    · rw [leavesMem_of_flush (decide_eq_true hnone)] at hleaves
      cases hleaves
    · exact heret hret
  · cases hx

theorem valid_of_executedIn (ks : List CpuIn) (t : Cpu × Order) (ht : Tracks t.1 t.2)
    (hm : Marked t.1 t.2) {x : Issued} (hx : x ∈ executedIn t ks) (hpc : x.pc ≠ ZeroWord) :
    (decode x.inst).instvalid = false := by
  induction ks generalizing t with
  | nil => cases hx
  | cons k ks ih =>
    rw [executedIn, List.mem_append] at hx
    obtain hx | hx := hx
    · exact valid_of_executed ht hm hx hpc
    · exact ih (follow t k) (tracks_step t k ht) (marked_step t k hm) hx

/-- The CPU and its account after a run from reset. -/
def followed (regs : RegFile) (is : List CpuIn) : Cpu × Order :=
  runFrom follow (Cpu.reset regs, .start) is

theorem valid_of_run (regs : RegFile) (is ks : List CpuIn) {x : Issued}
    (hx : x ∈ executedIn (followed regs is) ks) (hpc : x.pc ≠ ZeroWord) :
    (decode x.inst).instvalid = false :=
  valid_of_executedIn ks _ (invariant_of_anyRun tracks_step is (tracks_start regs))
    (invariant_of_anyRun marked_step is (marked_start regs)) hx hpc

end nehcpu.cpu

namespace nehcpu.kernel

open cpu machine

/-! ## The refill as instructions -/

def mtc0 (rt rd : RegAddr) : Word := 0b01000000100#11 ++ rt ++ rd ++ 0b00000000000#11

abbrev EXE_TLBWR : Word := 0b01000010000000000000000000000110#32

/-- `write_c0_...`: the value is in the register that the compiler has picked. -/
def WritesC0 (r : RegAddr) (value : Word) (x : Issued) : Prop :=
  (∃ rt, x.inst = mtc0 rt r) ∧ x.reg1 = value

/-- `tlb_replace_random` and the ERET at the end of the handler, among the instructions `l`. -/
def Refills (w : EntryWords) (l : List Issued) : Prop :=
  ∃ low0 pagemask low1 hi tlbwr eret, [low0, pagemask, low1, hi, tlbwr, eret].Sublist l ∧
    WritesC0 CP0_REG_ENTRYLO0 w.low0 low0 ∧ WritesC0 CP0_REG_PAGEMASK 0#32 pagemask ∧
    WritesC0 CP0_REG_ENTRYLO1 w.low1 low1 ∧ WritesC0 CP0_REG_ENTRYHI w.hi hi ∧
    (tlbwr.inst = EXE_TLBWR ∧ is_kseg0_kseg1 tlbwr.pc = true) ∧ eret.inst = EXE_ERET

/-- The TLB translates the address for a fetch, a load or a store. -/
def Translates (tlb : Tlb) (va : Word) (write : Bool) : Prop :=
  ∀ held_index, (vir2phy held_index tlb va).tlb_miss = false ∧
    (vir2phy held_index tlb va).V = true ∧ (write = true → (vir2phy held_index tlb va).D = true)

/-- From `t` on the refill runs to its end, and then the access raises no TLB exception. -/
def Resolved (t : Cpu × Order) (table : Nat → pte_t) (va : Word) (write : Bool) : Prop :=
  ∃ ks, Refills (tlb_refill va table (PTX va)) (executedIn t ks) ∧
    Translates (runFrom Cpu.step t.1 ks).tlb va write

/-- A user-mode access that the TLB has no entry for and the page table allows. -/
structure UserMiss (s : Cpu) (table : Nat → pte_t) (va : Word) (write : Bool) : Prop where
  exc : if write then s.excepttype = .tlbs else s.excepttype = .tlblInst ∨ s.excepttype = .tlblData
  addr : va = failedAddr s.ex_mem s.excepttype
  mode : UM s.cp0.status_o = true ∧ EXL s.cp0.status_o = false
  present : ptep_present (table (PTX va)) = true
  allowed : ptep_u_read (table (PTX va)) = true ∧
    (write = true → ptep_u_write (table (PTX va)) = true)

/-- The refill does not run to its end: TLBWR raises an exception. -/
theorem refill_not_executed (regs : RegFile) (is ks : List CpuIn) (w : EntryWords) :
    ¬ Refills w (executedIn (followed regs is) ks) := by
  rintro ⟨low0, pagemask, low1, hi, tlbwr, eret, hsub, -, -, -, -, ⟨hinst, hseg⟩, -⟩
  have hpc : tlbwr.pc ≠ ZeroWord := by
    intro h
    rw [h] at hseg
    exact absurd hseg (by decide)
  have hvalid := valid_of_run regs is ks (hsub.subset (by simp : tlbwr ∈ _)) hpc
  rw [hinst] at hvalid
  exact absurd hvalid (by decide)

/-- No miss is resolved, whatever the registers, the TLB and the page table hold. -/
theorem no_miss_is_resolved (regs : RegFile) (is : List CpuIn) (table : Nat → pte_t) (va : Word)
    (write : Bool) : ¬ Resolved (followed regs is) table va write := by
  rintro ⟨ks, hrefill, -⟩
  exact refill_not_executed regs is ks _ hrefill

/-- A frame that user code may read and write, at the start of a table. -/
def userTable (i : Nat) : pte_t := if i = 0 then 0x80012007#32 else 0#32

/-- EPC and STATUS for user code at `0x10000000`, and the words of its refill. -/
def missRegs (r : RegAddr) : Word :=
  let w := tlb_refill 0x10000000#32 userTable 0
  if r = 1#5 then 0x10000000#32 else if r = 2#5 then 0x12#32 else if r = 3#5 then w.low0
  else if r = 4#5 then w.low1 else if r = 5#5 then w.hi else 0#32

/-- ERET to the user code, up to the cycle in which its first fetch takes the exception. -/
def userMissRun : List CpuIn :=
  [.quiet, .quiet, .fetched (mtc0 1#5 CP0_REG_EPC), .quiet, .fetched (mtc0 2#5 CP0_REG_STATUS),
    .quiet, .fetched EXE_ERET, .quiet, .fetched ZeroWord, .quiet, .quiet, .fetched ZeroWord,
    .quiet, .fetched ZeroWord, .quiet, .quiet, .fetched ZeroWord, .quiet]

/-- The handler, up to the cycle in which TLBWR comes to `mem`. -/
def refillRun : List CpuIn :=
  [.quiet, .quiet, .fetched (mtc0 3#5 CP0_REG_ENTRYLO0), .quiet,
    .fetched (mtc0 0#5 CP0_REG_PAGEMASK), .quiet, .fetched (mtc0 4#5 CP0_REG_ENTRYLO1), .quiet,
    .fetched (mtc0 5#5 CP0_REG_ENTRYHI), .quiet, .fetched EXE_TLBWR, .quiet, .fetched EXE_ERET,
    .quiet]

theorem refill_is_rejected :
    UserMiss (Cpu.run missRegs userMissRun) userTable 0x10000000#32 false ∧
      ¬ Resolved (followed missRegs userMissRun) userTable 0x10000000#32 false ∧
      (Cpu.run missRegs (userMissRun ++ refillRun)).excepttype = .instInvalid := by
  refine ⟨⟨Or.inl ?_, ?_, ?_, ?_, ?_⟩, ?_, ?_⟩
  · decide +kernel
  · decide +kernel
  · decide +kernel
  · decide +kernel
  · decide +kernel
  · rintro ⟨ks, hrefill, -⟩
    exact refill_not_executed missRegs userMissRun ks _ hrefill
  · decide +kernel

end nehcpu.kernel
