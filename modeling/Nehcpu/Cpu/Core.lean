-- The CPU, `nehcpu.v`: the registers of every unit, the signals between the units
-- of one clock cycle, and the clock edge. Reset is the initial state. A signal that
-- some `always @ (*)` block leaves unassigned is a latch, so `Held` keeps the value
-- that it had in the cycle before.
import Nehcpu.Cpu.Bus
import Nehcpu.Cpu.Execute
import Nehcpu.Cpu.MemStage

namespace nehcpu.cpu

/-! ## State -/

/-- The registers of `if_id.v`. -/
structure IfId where
  id_pc : Word
  id_inst : Word
  is_inst_tlbl_o : Bool
deriving DecidableEq, Repr

/-- The registers of `mem_wb.v`. -/
structure MemWb where
  wb_reg : RegWrite
  wb_hilo : HiLoWrite
  wb_cp0 : Cp0Write
deriving DecidableEq, Repr

/-- What a flush leaves in the stages, which is also what reset leaves. -/
def IfId.clear : IfId := ⟨ZeroWord, ZeroWord, false⟩

def IdEx.clear : IdEx where
  ex_aluop := .NOP
  ex_alusel := .NOP
  ex_reg1 := ZeroWord
  ex_reg2 := ZeroWord
  ex_wd := NOPRegAddr
  ex_wreg := false
  ex_link_addr := ZeroWord
  ex_is_in_delayslot := false
  ex_inst := ZeroWord
  ex_excepttype := .clear
  ex_current_inst_addr := ZeroWord
  is_in_delayslot_o := false

/-- A bubble in `ex` leaves the delay slot mark of the instruction in `id` alone. -/
def IdEx.bubble (x : IdEx) : IdEx :=
  { IdEx.clear with is_in_delayslot_o := x.is_in_delayslot_o }

def ExMem.clear : ExMem :=
  ⟨.off, .off, .NOP, ZeroWord, ZeroWord, .off, .clear, ZeroWord, false⟩

def MemWb.clear : MemWb := ⟨.off, .off, .off⟩

/-- `regs` of `regfile.v`. -/
abbrev RegFile := RegAddr → Word

/-- The write port of `regfile.v`: `$0` is never written. -/
def RegFile.write (regs : RegFile) (w : RegWrite) : RegFile :=
  if w.wreg = true ∧ w.wd ≠ NOPRegAddr then fun r => if r = w.wd then w.wdata else regs r
  else regs

/-- A read port of `regfile.v`, which sees the write of the same cycle. -/
def RegFile.rdata (regs : RegFile) (w : RegWrite) (re : Bool) (raddr : RegAddr) : Word :=
  if raddr = NOPRegAddr then ZeroWord
  else if raddr = w.wd ∧ w.wreg = true ∧ re = true then w.wdata
  else if re then regs raddr
  else ZeroWord

/-- The values of the latches. -/
structure Held where
  reg1_o : Word
  reg2_o : Word
  ex : ExHeld
  cp0_data_o : Word
  mem : MemHeld
  inst_data : Word
  ram_data : Word
  inst_hit_index : BitVec 4
  data_hit_index : BitVec 4

def Held.reset : Held :=
  ⟨ZeroWord, ZeroWord, ⟨ZeroWord, 0#64, 0#5⟩, ZeroWord,
    ⟨ZeroWord, ZeroWord, ZeroWord, ZeroWord, ZeroWord, ZeroWord⟩, ZeroWord, ZeroWord, 0#4, 0#4⟩

structure Cpu where
  pc : Word
  ce : Bool
  if_id : IfId
  id_ex : IdEx
  ex_mem : ExMem
  mem_wb : MemWb
  regs : RegFile
  hi_o : Word
  lo_o : Word
  cp0 : Cp0
  tlb : Tlb
  ibus : WbBus
  dbus : WbBus
  held : Held

/-- The state after reset. The register file has no reset. -/
def Cpu.reset (regs : RegFile) : Cpu where
  pc := 0xBFC00000#32
  ce := false
  if_id := .clear
  id_ex := .clear
  ex_mem := .clear
  mem_wb := .clear
  regs := regs
  hi_o := ZeroWord
  lo_o := ZeroWord
  cp0 := .reset
  tlb := fun _ => 0#63
  ibus := .reset
  dbus := .reset
  held := .reset

/-- The inputs of one cycle. -/
structure CpuIn where
  int_i : BitVec 8
  iwishbone : WbAnswer
  dwishbone : WbAnswer
deriving DecidableEq, Repr

namespace Cpu

/-! ## Signals of the memory stage -/

variable (s : Cpu) (i : CpuIn)

/-- `data_vir2phy` and `inst_vir2phy` -/
def data_vir2phy : Vir2phy := vir2phy s.held.data_hit_index s.tlb (mem_addr_o s.ex_mem)
def inst_vir2phy : Vir2phy := vir2phy s.held.inst_hit_index s.tlb s.pc

/-- `mmu_is_tlbl_inst` -/
def mmu_is_tlbl_inst : Bool := is_tlbl_inst s.inst_vir2phy s.pc (mem_we s.ex_mem)

def mmu_flags : MmuFlags where
  is_tlb_modify := is_tlb_modify s.data_vir2phy (mem_addr_o s.ex_mem) (mem_we s.ex_mem)
  is_tlbl_data := is_tlbl_data s.data_vir2phy (mem_addr_o s.ex_mem) (mem_we s.ex_mem)
  is_tlbs := is_tlbs s.data_vir2phy (mem_addr_o s.ex_mem) (mem_we s.ex_mem)

/-- `mem_excepttype_o` -/
def excepttype : Except :=
  excepttype_o s.ex_mem s.mmu_flags (mem_cp0_cause s.held.mem s.cp0 s.mem_wb.wb_cp0)
    (mem_cp0_status s.cp0 s.mem_wb.wb_cp0)

/-- `flush` of `ctrl.v` -/
def flush : Bool := s.excepttype ≠ .none

/-- `new_pc` of `ctrl.v`, which `pc_reg` reads on a flush only. -/
def new_pc : Word :=
  match s.excepttype with
  | .none => ZeroWord
  | .eret => mem_cp0_epc s.cp0 s.mem_wb.wb_cp0
  | .tlblInst | .tlbMod | .tlblData | .tlbs => exc_vec_addr_o s.cp0
  | _ => exc_vec_addr_o s.cp0 + 0x180#32

/-- What `mem` asks of `dwishbone_bus`. -/
def data_req : CpuReq where
  cpu_ce_i := mem_ce_o s.ex_mem
  cpu_data_i := mem_data_o s.held.mem.mem_data_o s.ex_mem
  cpu_addr_i := s.data_vir2phy.physical_addr
  cpu_we_i := mem_we_o s.ex_mem s.excepttype
  cpu_sel_i := mem_sel_o s.ex_mem

/-- What the fetch asks of `iwishbone_bus`. -/
def inst_req : CpuReq := ⟨s.ce, ZeroWord, s.inst_vir2phy.physical_addr, false, 0b1111#4⟩

def stallreq_from_mem : Bool :=
  s.dbus.stallreq s.flush (mem_ce_o s.ex_mem) i.dwishbone.wishbone_ack_i

def stallreq_from_if : Bool := s.ibus.stallreq s.flush s.ce i.iwishbone.wishbone_ack_i

/-- `ram_data_i` -/
def ram_data : Word :=
  s.dbus.cpu_data_o s.held.ram_data s.flush (mem_ce_o s.ex_mem) i.dwishbone

/-- `inst_i` -/
def inst_data : Word := s.ibus.cpu_data_o s.held.inst_data s.flush s.ce i.iwishbone

/-- The register write that leaves the stage. -/
def mem_reg : RegWrite := mem_reg_o s.ex_mem (s.ram_data i)

def tlb_write : TlbWrite := tlb_write_struct_o s.held.mem s.ex_mem s.cp0 s.mem_wb.wb_cp0

def exc_info : ExcInfo where
  current_inst_addr_i := s.ex_mem.mem_current_inst_addr
  is_in_delayslot_i := s.ex_mem.mem_is_in_delayslot
  unaligned_addr_i := s.ex_mem.mem_mem_addr
  badvaddr_i :=
    mem_badvaddr_o s.ex_mem (mmu_badvaddr s.mmu_is_tlbl_inst s.pc (mem_addr_o s.ex_mem))

/-! ## Signals of the execute stage -/

/-- `{HI, LO}` of `ex.v` -/
def hilo : Word × Word := HILO ⟨s.ex_mem.mem_hilo, s.mem_wb.wb_hilo, s.hi_o, s.lo_o⟩

/-- `cp0_raddr_i` -/
def cp0_raddr : RegAddr :=
  cp0_reg_read_addr_o s.held.ex.cp0_reg_read_addr_o s.id_ex.ex_aluop s.id_ex.ex_inst

def cp0_data : Word := cp0_data_o s.held.cp0_data_o s.cp0 i.int_i s.cp0_raddr

def cp0_fwd : Cp0Fwd := ⟨s.ex_mem.mem_cp0, s.mem_wb.wb_cp0, s.cp0_data i⟩

/-- The register write that leaves the stage. -/
def ex_reg : RegWrite := cpu.ex_reg s.held.ex s.id_ex s.hilo (s.cp0_fwd i)

/-- The next contents of `ex_mem.v`. -/
def ex_out : ExMem where
  mem_reg := s.ex_reg i
  mem_hilo := ex_hilo s.held.ex s.id_ex s.hilo
  mem_aluop := s.id_ex.ex_aluop
  mem_mem_addr := ex_mem_addr_o s.id_ex
  mem_reg2 := s.id_ex.ex_reg2
  mem_cp0 := ex_cp0 s.id_ex
  mem_excepttype := ex_excepttype_o s.id_ex
  mem_current_inst_addr := s.id_ex.ex_current_inst_addr
  mem_is_in_delayslot := s.id_ex.ex_is_in_delayslot

/-! ## Signals of the decode stage -/

def dec : Decode := decode s.if_id.id_inst

def bypass : Bypass := ⟨s.id_ex.ex_aluop, s.ex_reg i, s.mem_reg i⟩

/-- `stallreq_from_id` -/
def stallreq_from_id : Bool :=
  stallreq_for_reg_loadrelate (s.bypass i) s.dec.reg1_read_o s.dec.reg1_addr_o ||
    stallreq_for_reg_loadrelate (s.bypass i) s.dec.reg2_read_o s.dec.reg2_addr_o

/-- `id_reg1_o` -/
def reg1_o : Word :=
  reg_o s.held.reg1_o (s.bypass i) s.dec.reg1_read_o s.dec.reg1_addr_o
    (s.regs.rdata s.mem_wb.wb_reg s.dec.reg1_read_o s.dec.reg1_addr_o) s.dec.imm

/-- `id_reg2_o` -/
def reg2_o : Word :=
  reg_o s.held.reg2_o (s.bypass i) s.dec.reg2_read_o s.dec.reg2_addr_o
    (s.regs.rdata s.mem_wb.wb_reg s.dec.reg2_read_o s.dec.reg2_addr_o) s.dec.imm

def id_branch : BranchOut := branch s.if_id.id_inst s.if_id.id_pc (s.reg1_o i) (s.reg2_o i)

/-- The next contents of `id_ex.v`. -/
def id_out : IdEx :=
  idOut s.if_id.id_inst s.if_id.id_pc (s.reg1_o i) (s.reg2_o i) s.id_ex.is_in_delayslot_o
    s.if_id.is_inst_tlbl_o

/-! ## `ctrl` -/

/-- Which stages stop, from bit 0 for the PC to bit 5 for write back. -/
def stall : BitVec 6 :=
  if s.flush then 0b000000#6
  else if s.stallreq_from_mem i then 0b011111#6
  else if s.stallreq_from_id i then 0b000111#6
  else if s.stallreq_from_if i then 0b000111#6
  else 0b000000#6

/-! ## The clock edge -/

/-- What `if_id.v`, `id_ex.v`, `ex_mem.v` and `mem_wb.v` have in common: `stop` is the stall
bit of the stage before the registers and `stopNext` that of the stage after them. -/
def latch {α : Type} (flush stop stopNext : Bool) (clear bubble load cur : α) : α :=
  if flush then clear
  else if stop = true ∧ stopNext = false then bubble
  else if stop = false then load
  else cur

section

variable {α : Type} (stopNext : Bool) (clear bubble load cur : α)

@[simp] theorem latch_flush (stop : Bool) :
    latch true stop stopNext clear bubble load cur = clear := rfl

@[simp] theorem latch_load : latch false false stopNext clear bubble load cur = load := rfl

@[simp] theorem latch_bubble : latch false true false clear bubble load cur = bubble := rfl

@[simp] theorem latch_keep : latch false true true clear bubble load cur = cur := rfl

end

/-- `pc_reg.v` -/
def next_pc : Word :=
  if s.ce = false then 0xBFC00000#32
  else if s.flush then s.new_pc
  else if (s.id_branch i).branch_flag_o = true ∧ (s.stall i)[0] = false then
    (s.id_branch i).branch_target_addr_o
  else if (s.stall i)[0] = false then s.pc + 4#32
  else s.pc

/-- The next contents of `if_id.v`: a fetch that misses the TLB brings no instruction. -/
def if_out : IfId where
  id_pc := s.pc
  id_inst := if s.mmu_is_tlbl_inst then ZeroWord else s.inst_data i
  is_inst_tlbl_o := s.mmu_is_tlbl_inst

def mem_out : MemWb := ⟨s.mem_reg i, s.ex_mem.mem_hilo, s.ex_mem.mem_cp0⟩

/-- The values that the latches show in this cycle. -/
def next_held : Held where
  reg1_o := s.reg1_o i
  reg2_o := s.reg2_o i
  ex :=
    { moveres :=
        moveres s.held.ex.moveres s.id_ex.ex_aluop s.hilo (s.cp0_fwd i) s.id_ex.ex_inst
      mulres := mulres s.held.ex.mulres s.id_ex.ex_aluop s.id_ex.ex_reg1 s.id_ex.ex_reg2
      cp0_reg_read_addr_o := s.cp0_raddr }
  cp0_data_o := s.cp0_data i
  mem :=
    { mem_data_o := mem_data_o s.held.mem.mem_data_o s.ex_mem
      cp0_cause := mem_cp0_cause s.held.mem s.cp0 s.mem_wb.wb_cp0
      cp0_index := mem_cp0_index s.held.mem s.cp0 s.mem_wb.wb_cp0
      cp0_entrylo0 := mem_cp0_entrylo0 s.held.mem s.cp0 s.mem_wb.wb_cp0
      cp0_entrylo1 := mem_cp0_entrylo1 s.held.mem s.cp0 s.mem_wb.wb_cp0
      cp0_entryhi := mem_cp0_entryhi s.held.mem s.cp0 s.mem_wb.wb_cp0 }
  inst_data := s.inst_data i
  ram_data := s.ram_data i
  inst_hit_index := hit_index s.held.inst_hit_index s.tlb s.pc
  data_hit_index := hit_index s.held.data_hit_index s.tlb (mem_addr_o s.ex_mem)

/-- One rising edge of `clk`. -/
def step : Cpu where
  pc := s.next_pc i
  ce := true
  if_id := latch s.flush (s.stall i)[1] (s.stall i)[2] .clear .clear (s.if_out i) s.if_id
  id_ex := latch s.flush (s.stall i)[2] (s.stall i)[3] .clear s.id_ex.bubble (s.id_out i) s.id_ex
  ex_mem := latch s.flush (s.stall i)[3] (s.stall i)[4] .clear .clear (s.ex_out i) s.ex_mem
  mem_wb := latch s.flush (s.stall i)[4] (s.stall i)[5] .clear .clear (s.mem_out i) s.mem_wb
  regs := s.regs.write s.mem_wb.wb_reg
  hi_o := if s.mem_wb.wb_hilo.whilo then s.mem_wb.wb_hilo.hi else s.hi_o
  lo_o := if s.mem_wb.wb_hilo.whilo then s.mem_wb.wb_hilo.lo else s.lo_o
  cp0 := s.cp0.next i.int_i s.mem_wb.wb_cp0 s.excepttype s.exc_info
  tlb := s.tlb.next s.tlb_write
  ibus := s.ibus.next (s.stall i) s.flush s.inst_req i.iwishbone
  dbus := s.dbus.next (s.stall i) s.flush s.data_req i.dwishbone
  held := s.next_held i

/-! ## The four kinds of edge -/

/-- The stages after an edge, each with the contents that it takes over. -/
structure Stages where
  if_id : IfId
  id_ex : IdEx
  ex_mem : ExMem
  mem_wb : MemWb

def stages : Stages := ⟨s.if_id, s.id_ex, s.ex_mem, s.mem_wb⟩

variable {s i}

theorem stages_of_flush (hf : s.flush = true) :
    (s.step i).stages = ⟨.clear, .clear, .clear, .clear⟩ := by
  simp only [stages, step, hf, latch_flush]

/-- The data bus stops everything: nothing reaches write back. -/
theorem stages_of_memStall (hf : s.flush = false) (hm : s.stallreq_from_mem i = true) :
    (s.step i).stages = ⟨s.if_id, s.id_ex, s.ex_mem, .clear⟩ := by
  have hst : s.stall i = 0b011111#6 := by
    simp only [stall, hf, hm, Bool.false_eq_true, ↓reduceIte]
  simp [stages, step, hf, hst]

/-- `id` or the fetch stops the front: a bubble enters `ex`. -/
theorem stages_of_hold (hf : s.flush = false) (hm : s.stallreq_from_mem i = false)
    (h : s.stallreq_from_id i = true ∨ s.stallreq_from_if i = true) :
    s.stall i = 0b000111#6 ∧
      (s.step i).stages = ⟨s.if_id, s.id_ex.bubble, s.ex_out i, s.mem_out i⟩ := by
  have hst : s.stall i = 0b000111#6 := by
    unfold stall
    rcases h with h | h
    · simp only [hf, hm, h, Bool.false_eq_true, ↓reduceIte]
    · simp only [hf, hm, h, Bool.false_eq_true, ↓reduceIte, ite_self]
  refine ⟨hst, ?_⟩
  simp [stages, step, hf, hst]

theorem stages_of_run (hf : s.flush = false) (hst : s.stall i = 0b000000#6) :
    (s.step i).stages = ⟨s.if_out i, s.id_out i, s.ex_out i, s.mem_out i⟩ := by
  simp [stages, step, hf, hst]

theorem stall_of_memStall (hf : s.flush = false) (hm : s.stallreq_from_mem i = true) :
    s.stall i = 0b011111#6 := by
  simp only [stall, hf, hm, Bool.false_eq_true, ↓reduceIte]

theorem stall_of_flush (hf : s.flush = true) : s.stall i = 0b000000#6 := by
  simp only [stall, hf, ↓reduceIte]

/-- With no flush the vector is zero only when nobody asks for a stall. -/
theorem stall_eq_zero_iff (hf : s.flush = false) :
    s.stall i = 0b000000#6 ↔
      s.stallreq_from_mem i = false ∧ s.stallreq_from_id i = false ∧
        s.stallreq_from_if i = false := by
  unfold stall
  rw [hf]
  cases s.stallreq_from_mem i <;> cases s.stallreq_from_id i <;>
    cases s.stallreq_from_if i <;> decide

/-- Bit 2, the stall of `id`, is off only when the whole vector is. -/
theorem stall_id_iff : (s.stall i)[2] = false ↔ s.stall i = 0b000000#6 := by
  unfold stall
  cases s.flush <;> cases s.stallreq_from_mem i <;> cases s.stallreq_from_id i <;>
    cases s.stallreq_from_if i <;> decide

/-- So is bit 0, the stall of the PC. -/
theorem stall_pc_iff : (s.stall i)[0] = false ↔ s.stall i = 0b000000#6 := by
  unfold stall
  cases s.flush <;> cases s.stallreq_from_mem i <;> cases s.stallreq_from_id i <;>
    cases s.stallreq_from_if i <;> decide

/-- Bits 3 and 4, the stalls of `ex` and of `mem`, are on only for the data bus. -/
theorem stall_ex_iff (hf : s.flush = false) :
    (s.stall i)[3] = false ↔ s.stallreq_from_mem i = false := by
  unfold stall
  rw [hf]
  cases s.stallreq_from_mem i <;> cases s.stallreq_from_id i <;>
    cases s.stallreq_from_if i <;> decide

theorem stall_mem_iff (hf : s.flush = false) :
    (s.stall i)[4] = false ↔ s.stallreq_from_mem i = false := by
  unfold stall
  rw [hf]
  cases s.stallreq_from_mem i <;> cases s.stallreq_from_id i <;>
    cases s.stallreq_from_if i <;> decide

end Cpu

end nehcpu.cpu
