-- The memory stage, `mem.v`: the bus request of a load or a store, the exception
-- that it takes, the bytes that a load picks, and the TLB write port.
import Nehcpu.Cpu.Cp0
import Nehcpu.Cpu.Mmu

namespace nehcpu.cpu

/-- The registers of `ex_mem.v`, which are the inputs of `mem.v`. -/
structure ExMem where
  mem_reg : RegWrite
  mem_hilo : HiLoWrite
  mem_aluop : AluOp
  mem_mem_addr : Word
  mem_reg2 : Word
  mem_cp0 : Cp0Write
  mem_excepttype : ExcFlags
  mem_current_inst_addr : Word
  mem_is_in_delayslot : Bool
deriving DecidableEq, Repr

/-! ## The bus request -/

def is_load (aluop : AluOp) : Bool := aluop = .LB || aluop = .LBU || aluop = .LHU || aluop = .LW

def is_store (aluop : AluOp) : Bool := aluop = .SB || aluop = .SW

/-- `mem_ce_o` -/
def mem_ce_o (m : ExMem) : Bool := is_load m.mem_aluop || is_store m.mem_aluop

/-- `mem_we`, which is also `is_save_inst` -/
def mem_we (m : ExMem) : Bool := is_store m.mem_aluop

def mem_addr_o (m : ExMem) : Word := if mem_ce_o m then m.mem_mem_addr else ZeroWord

/-- `mem_addr_i[1:0]` -/
def byteOffset (addr : Word) : BitVec 2 := addr.extractLsb' 0 2

/-- One byte lane. -/
def byteSel (off : BitVec 2) : BitVec 4 :=
  match off with
  | 0b00#2 => 0b0001#4
  | 0b01#2 => 0b0010#4
  | 0b10#2 => 0b0100#4
  | _ => 0b1000#4

/-- `mem_sel_o` -/
def mem_sel_o (m : ExMem) : BitVec 4 :=
  match m.mem_aluop with
  | .LB | .LBU | .SB => byteSel (byteOffset m.mem_mem_addr)
  | .LHU =>
    match byteOffset m.mem_mem_addr with
    | 0b00#2 => 0b0011#4
    | 0b10#2 => 0b1100#4
    | _ => 0b1111#4
  | _ => 0b1111#4

/-- `mem_data_o`, which only a store assigns. -/
def mem_data_o (held : Word) (m : ExMem) : Word :=
  match m.mem_aluop with
  | .SB =>
    let b := m.mem_reg2.extractLsb' 0 8
    b ++ b ++ b ++ b
  | .SW => m.mem_reg2
  | _ => held

/-! ## The value of a load -/

def byteLane (data : Word) (off : BitVec 2) : BitVec 8 :=
  match off with
  | 0b00#2 => data.extractLsb' 0 8
  | 0b01#2 => data.extractLsb' 8 8
  | 0b10#2 => data.extractLsb' 16 8
  | _ => data.extractLsb' 24 8

/-- `wdata_o`, from the value of `ex` and the word on the bus. -/
def mem_wdata_o (m : ExMem) (mem_data_i : Word) : Word :=
  match m.mem_aluop with
  | .LB => (byteLane mem_data_i (byteOffset m.mem_mem_addr)).signExtend 32
  | .LBU => (byteLane mem_data_i (byteOffset m.mem_mem_addr)).zeroExtend 32
  | .LHU =>
    match byteOffset m.mem_mem_addr with
    | 0b00#2 => (mem_data_i.extractLsb' 0 16).zeroExtend 32
    -- `{{16{1'b0}}, mem_data_i[31: 15]}` is 33 bits wide and loses its top bit
    | 0b10#2 => (0#16 ++ mem_data_i.extractLsb' 15 17).truncate 32
    | _ => ZeroWord
  | .LW => mem_data_i
  | _ => m.mem_reg.wdata

/-- `wd_o`, `wreg_o` and `wdata_o` -/
def mem_reg_o (m : ExMem) (mem_data_i : Word) : RegWrite :=
  ⟨m.mem_reg.wreg, m.mem_reg.wd, mem_wdata_o m mem_data_i⟩

/-! ## The CP0 values that the stage sees through write back -/

/-- The registers that write back writes whole. -/
def cp0Latest (wb : Cp0Write) (addr : RegAddr) (value : Word) : Word :=
  if wb.cp0_reg_we && wb.cp0_reg_write_addr == addr then wb.cp0_reg_data else value

/-- The registers that it writes in part: `always @ (*)` assigns only the bits of `mask`,
so the others keep the values `held`. -/
def cp0LatestPart (held mask : Word) (wb : Cp0Write) (addr : RegAddr) (value : Word) : Word :=
  if wb.cp0_reg_we && wb.cp0_reg_write_addr == addr then maskWrite mask held wb.cp0_reg_data
  else value

/-- What `mem.v` keeps of its partly assigned words. -/
structure MemHeld where
  mem_data_o : Word
  cp0_cause : Word
  cp0_index : Word
  cp0_entrylo0 : Word
  cp0_entrylo1 : Word
  cp0_entryhi : Word
deriving DecidableEq, Repr

def mem_cp0_status (c : Cp0) (wb : Cp0Write) : Word := cp0Latest wb CP0_REG_STATUS c.status_o

/-- `cp0_epc_o` -/
def mem_cp0_epc (c : Cp0) (wb : Cp0Write) : Word := cp0Latest wb CP0_REG_EPC c.epc_o

/-- bits 23, 22 and 9:8 -/
abbrev CAUSE_FORWARD_MASK : Word := 0x00c00300#32

def mem_cp0_cause (held : MemHeld) (c : Cp0) (wb : Cp0Write) : Word :=
  cp0LatestPart held.cp0_cause CAUSE_FORWARD_MASK wb CP0_REG_CAUSE c.cause_o

def mem_cp0_index (held : MemHeld) (c : Cp0) (wb : Cp0Write) : Word :=
  cp0LatestPart held.cp0_index INDEX_MASK wb CP0_REG_INDEX c.index_o

def mem_cp0_entrylo0 (held : MemHeld) (c : Cp0) (wb : Cp0Write) : Word :=
  cp0LatestPart held.cp0_entrylo0 ENTRYLO_MASK wb CP0_REG_ENTRYLO0 c.entrylo0_o

def mem_cp0_entrylo1 (held : MemHeld) (c : Cp0) (wb : Cp0Write) : Word :=
  cp0LatestPart held.cp0_entrylo1 ENTRYLO_MASK wb CP0_REG_ENTRYLO1 c.entrylo1_o

def mem_cp0_entryhi (held : MemHeld) (c : Cp0) (wb : Cp0Write) : Word :=
  cp0LatestPart held.cp0_entryhi ENTRYHI_MASK wb CP0_REG_ENTRYHI c.entryhi_o

/-! ## The TLB write port -/

/-- `tlb_write_entry`: VPN2, then PFN, D and V of the odd page, then those of the even one. -/
def packEntry (entryhi entrylo0 entrylo1 : Word) : TlbEntry :=
  entryhi.extractLsb' 13 19 ++
    entrylo1.extractLsb' 6 20 ++ entrylo1.extractLsb' 1 2 ++
    entrylo0.extractLsb' 6 20 ++ entrylo0.extractLsb' 1 2

/-- `tlb_write_struct_o`. The enable looks at the operation alone. -/
def tlb_write_struct_o (held : MemHeld) (m : ExMem) (c : Cp0) (wb : Cp0Write) : TlbWrite where
  tlb_write_enable := m.mem_aluop = .TLBWI
  tlb_write_index := (mem_cp0_index held c wb).extractLsb' 0 4
  tlb_write_entry := packEntry (mem_cp0_entryhi held c wb) (mem_cp0_entrylo0 held c wb)
    (mem_cp0_entrylo1 held c wb)

/-! ## The exception -/

/-- A pending interrupt that no bit of STATUS holds back. -/
def interruptTaken (cp0_cause cp0_status : Word) : Bool :=
  (cp0_cause.extractLsb' 8 8 &&& cp0_status.extractLsb' 8 8) != 0x00#8 &&
    !getElem cp0_status 1 bit1_lt && getElem cp0_status 0 bit0_lt

/-- The flags that `mmu` gives to `mem`. -/
structure MmuFlags where
  is_tlb_modify : Bool
  is_tlbl_data : Bool
  is_tlbs : Bool
deriving DecidableEq, Repr

/-- `excepttype_o`: the first cause in this order wins. -/
def excepttype_o (m : ExMem) (f : MmuFlags) (cp0_cause cp0_status : Word) : Except :=
  if m.mem_current_inst_addr ≠ ZeroWord then
    if interruptTaken cp0_cause cp0_status then .interrupt
    else if m.mem_excepttype.syscall then .syscall
    else if m.mem_excepttype.tlblInst then .tlblInst
    else if f.is_tlbl_data ∧ m.mem_mem_addr ≠ ZeroWord then .tlblData
    else if f.is_tlbs ∧ m.mem_mem_addr ≠ ZeroWord then .tlbs
    else if f.is_tlb_modify ∧ m.mem_mem_addr ≠ ZeroWord then .tlbMod
    else if m.mem_excepttype.instInvalid then .instInvalid
    else if m.mem_excepttype.adel then .adel
    else if m.mem_excepttype.ades then .ades
    else if m.mem_excepttype.eret then .eret
    else .none
  else .none

/-- `mem_we_o`: an exception takes the write strobe back. -/
def mem_we_o (m : ExMem) (e : Except) : Bool := mem_we m && e = .none

/-- `badvaddr_o` -/
def mem_badvaddr_o (m : ExMem) (badvaddr_i : Word) : Word :=
  if m.mem_excepttype.tlblInst then m.mem_current_inst_addr else badvaddr_i

end nehcpu.cpu
