-- `$0` as a source operand. The register file reads it as zero, but the bypass of
-- `id.v` from `mem` compares register numbers without leaving `$0` out, so an
-- instruction in `mem` that names `$0` as its destination shows its result.
import Nehcpu.Cpu.Forwarding

namespace nehcpu.cpu

open machine

/-- A read port of `id` that is in use and asks for `$0`. -/
def AsksZero (read : Bool) (addr : RegAddr) : Prop := read = true ∧ addr = NOPRegAddr

instance (read : Bool) (addr : RegAddr) : Decidable (AsksZero read addr) := instDecidableAnd

/-- The instruction writes something other than zero to `$0`. -/
def WritesZeroReg (w : RegWrite) : Prop :=
  w.wreg = true ∧ w.wd = NOPRegAddr ∧ w.wdata ≠ ZeroWord

instance (w : RegWrite) : Decidable (WritesZeroReg w) := instDecidableAnd

/-- At a hand-over, each port that asks for `$0` gives zero. -/
def ZeroReadsZero (s : Cpu) (i : CpuIn) : Prop :=
  HandsOver s i →
    (AsksZero s.dec.reg1_read_o s.dec.reg1_addr_o → s.reg1_o i = ZeroWord) ∧
    (AsksZero s.dec.reg2_read_o s.dec.reg2_addr_o → s.reg2_o i = ZeroWord)

instance (s : Cpu) (i : CpuIn) : Decidable (ZeroReadsZero s i) :=
  inferInstanceAs (Decidable (_ → _ ∧ _))

/-- When an instruction that reads `$0` is handed over, the one in `mem` writes no value
other than zero to `$0`. -/
def NoZeroBypass (s : Cpu) (i : CpuIn) : Prop :=
  HandsOver s i →
    AsksZero s.dec.reg1_read_o s.dec.reg1_addr_o ∨ AsksZero s.dec.reg2_read_o s.dec.reg2_addr_o →
    ¬ WritesZeroReg (s.mem_reg i)

/-! ## One read port -/

/-- The register file reads `$0` as zero, whatever write back writes. -/
theorem rdata_zero (regs : RegFile) (w : RegWrite) (re : Bool) :
    regs.rdata w re NOPRegAddr = ZeroWord := by
  unfold RegFile.rdata
  rw [if_pos rfl]

/-- With nothing to take from `ex`, the operand for `$0` is what `mem` writes to it. -/
theorem reg_o_zero_iff (held imm : Word) (b : Bypass) (regs : RegFile) (wb : RegWrite)
    (hq : stallreq_for_reg_loadrelate b true NOPRegAddr = false) (hex : b.ex.wreg = false) :
    reg_o held b true NOPRegAddr (regs.rdata wb true NOPRegAddr) imm = ZeroWord ↔
      ¬ WritesZeroReg b.mem := by
  have hval : reg_o held b true NOPRegAddr (regs.rdata wb true NOPRegAddr) imm =
      if b.mem.wreg = true ∧ b.mem.wd = NOPRegAddr then b.mem.wdata else ZeroWord := by
    unfold reg_o
    rw [hq, hex, rdata_zero]
    simp
  rw [hval]
  unfold WritesZeroReg
  by_cases hm : b.mem.wreg = true ∧ b.mem.wd = NOPRegAddr
  · rw [if_pos hm]
    constructor
    · intro h hw
      exact hw.2.2 h
    · intro h
      by_contra hne
      exact h ⟨hm.1, hm.2, hne⟩
  · rw [if_neg hm]
    constructor
    · intro _ hw
      exact hm ⟨hw.1, hw.2.1⟩
    · intro _
      rfl

/-! ## One edge -/

variable {s : Cpu} {i : CpuIn}

theorem ex_wreg_of_handsOver (hg : Good s) (h : HandsOver s i) : (s.bypass i).ex.wreg = false := by
  have hw : (s.bypass i).ex.wreg = s.id_ex.ex_wreg := rfl
  rw [hw, bubble_of_run hg h.1 (Cpu.stall_id_iff.1 h.2), bubble_wreg]

theorem reg1_o_zero_iff (hg : Good s) (h : HandsOver s i)
    (hz : AsksZero s.dec.reg1_read_o s.dec.reg1_addr_o) :
    s.reg1_o i = ZeroWord ↔ ¬ WritesZeroReg (s.mem_reg i) := by
  have hq := (noLoadUse_of_handsOver h).1
  unfold Cpu.reg1_o
  rw [hz.1, hz.2] at hq ⊢
  exact reg_o_zero_iff _ _ (s.bypass i) _ _ hq (ex_wreg_of_handsOver hg h)

theorem reg2_o_zero_iff (hg : Good s) (h : HandsOver s i)
    (hz : AsksZero s.dec.reg2_read_o s.dec.reg2_addr_o) :
    s.reg2_o i = ZeroWord ↔ ¬ WritesZeroReg (s.mem_reg i) := by
  have hq := (noLoadUse_of_handsOver h).2
  unfold Cpu.reg2_o
  rw [hz.1, hz.2] at hq ⊢
  exact reg_o_zero_iff _ _ (s.bypass i) _ _ hq (ex_wreg_of_handsOver hg h)

theorem zeroReadsZero_iff (hg : Good s) : ZeroReadsZero s i ↔ NoZeroBypass s i := by
  unfold ZeroReadsZero NoZeroBypass
  constructor
  · intro h ho hz
    rcases hz with hz | hz
    · exact (reg1_o_zero_iff hg ho hz).1 ((h ho).1 hz)
    · exact (reg2_o_zero_iff hg ho hz).1 ((h ho).2 hz)
  · intro h ho
    constructor
    · intro hz
      exact (reg1_o_zero_iff hg ho hz).2 (h ho (Or.inl hz))
    · intro hz
      exact (reg2_o_zero_iff hg ho hz).2 (h ho (Or.inr hz))

/-! ## Every run -/

/-- Over a run from reset, `$0` reads as zero at every hand-over if and only if no
instruction that reads `$0` is handed over while the one in `mem` writes something other
than zero to `$0`. -/
theorem zero_register_iff (regs : RegFile) (is : List CpuIn) :
    StepsMeet Cpu.step ZeroReadsZero (Cpu.reset regs) is ↔
      StepsMeet Cpu.step NoZeroBypass (Cpu.reset regs) is :=
  stepsMeet_congr good_step (fun _ _ hg => zeroReadsZero_iff hg) is (good_reset regs)

/-- `addiu $0, $0, 5` and `addu $1, $0, $0`, with a fetch that is answered in its first
cycle. -/
def zeroBypassRun : List CpuIn :=
  [.quiet, .quiet, .fetched 0x24000005#32, .quiet, .fetched 0x00000821#32, .quiet,
    .fetched ZeroWord]

theorem zero_register_shows_a_write :
    ¬ ∀ (regs : RegFile) (is : List CpuIn),
      StepsMeet Cpu.step ZeroReadsZero (Cpu.reset regs) is := by
  intro h
  have hrun : ¬ StepsMeet Cpu.step ZeroReadsZero (Cpu.reset fun _ => ZeroWord) zeroBypassRun := by
    decide +kernel
  exact hrun (h _ _)

end nehcpu.cpu
