-- The system control registers, `cp0_reg.v`: what a clock edge does to them, the
-- value that MFC0 reads, and the exception vector.
import Nehcpu.Cpu.Defines

namespace nehcpu.cpu

/-- The registers of `cp0_reg.v`. -/
structure Cp0 where
  index_o : Word
  entrylo0_o : Word
  entrylo1_o : Word
  badvaddr_o : Word
  count_o : Word
  entryhi_o : Word
  compare_o : Word
  status_o : Word
  cause_o : Word
  epc_o : Word
  ebase_o : Word
  timer_int_o : Bool
deriving DecidableEq, Repr

/-- The reset values: CU0, BEV and ERL are one. -/
def Cp0.reset : Cp0 where
  index_o := ZeroWord
  entrylo0_o := ZeroWord
  entrylo1_o := ZeroWord
  badvaddr_o := ZeroWord
  count_o := ZeroWord
  entryhi_o := ZeroWord
  compare_o := ZeroWord
  status_o := 0x10400004#32
  cause_o := ZeroWord
  epc_o := ZeroWord
  ebase_o := 0x80000000#32
  timer_int_o := false

/-! ## Partial writes -/

/-- The word `old` with the bits of `mask` taken from `new`. -/
def maskWrite (mask old new : Word) : Word := (old &&& ~~~mask) ||| (new &&& mask)

/-- bits 3:0 -/
abbrev INDEX_MASK : Word := 0x0000000f#32
/-- bits 25:6 and 2:0 -/
abbrev ENTRYLO_MASK : Word := 0x03ffffc7#32
/-- bits 31:13 and 7:0 -/
abbrev ENTRYHI_MASK : Word := 0xffffe0ff#32
/-- bits 31:13 -/
abbrev VPN2_MASK : Word := 0xffffe000#32
/-- bits 28, 22, 15:8, 4 and 2:0 -/
abbrev STATUS_MASK : Word := 0x1040ff17#32
/-- bit 1, `EXL` -/
abbrev EXL_MASK : Word := 0x00000002#32
/-- bits 23 and 9:8 -/
abbrev CAUSE_MASK : Word := 0x00800300#32
/-- bits 15:8 -/
abbrev CAUSE_IP_MASK : Word := 0x0000ff00#32
/-- bit 31, `BD` -/
abbrev CAUSE_BD_MASK : Word := 0x80000000#32
/-- bits 6:2, `ExcCode` -/
abbrev CAUSE_CODE_MASK : Word := 0x0000007c#32
/-- bits 29:12 -/
abbrev EBASE_MASK : Word := 0x3ffff000#32

@[simp] theorem getLsbD_maskWrite (mask old new : Word) (i : Nat) :
    (maskWrite mask old new).getLsbD i =
      if mask.getLsbD i then new.getLsbD i else old.getLsbD i := by
  unfold maskWrite
  by_cases hi : i < 32
  · rw [BitVec.getLsbD_or, BitVec.getLsbD_and, BitVec.getLsbD_and, BitVec.getLsbD_not]
    cases mask.getLsbD i <;> simp [hi]
  · simp [BitVec.getLsbD_of_ge _ _ (Nat.le_of_not_lt hi)]

/-- A field inside the mask is the new one. -/
theorem extract_maskWrite (mask old new : Word) (start len : Nat)
    (h : ∀ i, i < len → mask.getLsbD (start + i) = true) :
    (maskWrite mask old new).extractLsb' start len = new.extractLsb' start len := by
  apply BitVec.eq_of_getLsbD_eq
  intro i hi
  rw [BitVec.getLsbD_extractLsb', BitVec.getLsbD_extractLsb', getLsbD_maskWrite, if_pos (h i hi)]

/-- A field outside the mask is the old one. -/
theorem extract_maskWrite_old (mask old new : Word) (start len : Nat)
    (h : ∀ i, i < len → mask.getLsbD (start + i) = false) :
    (maskWrite mask old new).extractLsb' start len = old.extractLsb' start len := by
  apply BitVec.eq_of_getLsbD_eq
  intro i hi
  rw [BitVec.getLsbD_extractLsb', BitVec.getLsbD_extractLsb', getLsbD_maskWrite, h i hi,
    if_neg Bool.false_ne_true]

/-! ## A clock edge -/

/-- What every edge does: COUNT, the pending interrupts and the timer. -/
def Cp0.tick (c : Cp0) (int_i : BitVec 8) : Cp0 :=
  { c with
    count_o := c.count_o + 1#32
    cause_o := maskWrite CAUSE_IP_MASK c.cause_o (0#16 ++ int_i ++ 0#8)
    timer_int_o :=
      if c.compare_o ≠ ZeroWord ∧ c.count_o = c.compare_o then true else c.timer_int_o }

/-- `case (waddr_i)` -/
def Cp0.write (c : Cp0) (w : Cp0Write) : Cp0 :=
  if w.cp0_reg_we then
    if w.cp0_reg_write_addr = CP0_REG_INDEX then
      { c with index_o := maskWrite INDEX_MASK c.index_o w.cp0_reg_data }
    else if w.cp0_reg_write_addr = CP0_REG_ENTRYLO0 then
      { c with entrylo0_o := maskWrite ENTRYLO_MASK c.entrylo0_o w.cp0_reg_data }
    else if w.cp0_reg_write_addr = CP0_REG_ENTRYLO1 then
      { c with entrylo1_o := maskWrite ENTRYLO_MASK c.entrylo1_o w.cp0_reg_data }
    else if w.cp0_reg_write_addr = CP0_REG_BADVADDR then { c with badvaddr_o := w.cp0_reg_data }
    else if w.cp0_reg_write_addr = CP0_REG_COUNT then { c with count_o := w.cp0_reg_data }
    else if w.cp0_reg_write_addr = CP0_REG_ENTRYHI then
      { c with entryhi_o := maskWrite ENTRYHI_MASK c.entryhi_o w.cp0_reg_data }
    else if w.cp0_reg_write_addr = CP0_REG_COMPARE then
      { c with compare_o := w.cp0_reg_data, timer_int_o := false }
    else if w.cp0_reg_write_addr = CP0_REG_STATUS then
      { c with status_o := maskWrite STATUS_MASK c.status_o w.cp0_reg_data }
    else if w.cp0_reg_write_addr = CP0_REG_EPC then { c with epc_o := w.cp0_reg_data }
    else if w.cp0_reg_write_addr = CP0_REG_CAUSE then
      { c with cause_o := maskWrite CAUSE_MASK c.cause_o w.cp0_reg_data }
    else if w.cp0_reg_write_addr = CP0_REG_EBASE then
      { c with ebase_o := maskWrite EBASE_MASK c.ebase_o w.cp0_reg_data }
    else c
  else c

/-- What `mem` says about the instruction that takes an exception. -/
structure ExcInfo where
  current_inst_addr_i : Word
  is_in_delayslot_i : Bool
  unaligned_addr_i : Word
  badvaddr_i : Word
deriving DecidableEq, Repr

/-- The part that every exception but ERET shares: EPC, `BD`, `EXL` and `ExcCode`. -/
def Cp0.enter (c : Cp0) (x : ExcInfo) (code : BitVec 5) : Cp0 :=
  { c with
    epc_o := if x.is_in_delayslot_i then x.current_inst_addr_i - 4#32 else x.current_inst_addr_i
    cause_o :=
      maskWrite CAUSE_CODE_MASK
        (maskWrite CAUSE_BD_MASK c.cause_o (if x.is_in_delayslot_i then CAUSE_BD_MASK else ZeroWord))
        (0#25 ++ code ++ 0#2)
    status_o := maskWrite EXL_MASK c.status_o EXL_MASK }

/-- The TLB exceptions also say which address failed. -/
def Cp0.enterTlb (c : Cp0) (x : ExcInfo) (code : BitVec 5) : Cp0 :=
  { c.enter x code with
    badvaddr_o := x.badvaddr_i
    entryhi_o := maskWrite VPN2_MASK c.entryhi_o x.badvaddr_i }

/-- `case (excepttype_i)` -/
def Cp0.except (c : Cp0) (e : Except) (x : ExcInfo) : Cp0 :=
  match e with
  | .none => c
  | .interrupt => c.enter x 0b00000#5
  | .syscall => c.enter x 0b01000#5
  | .instInvalid => c.enter x 0b01010#5
  | .adel => { c.enter x 0b00100#5 with badvaddr_o := x.unaligned_addr_i }
  | .ades => { c.enter x 0b00101#5 with badvaddr_o := x.unaligned_addr_i }
  | .eret => { c with status_o := maskWrite EXL_MASK c.status_o ZeroWord }
  | .tlblInst => c.enterTlb x 0b00010#5
  | .tlbMod => c.enterTlb x 0b00001#5
  | .tlblData => c.enterTlb x 0b00010#5
  | .tlbs => c.enterTlb x 0b00011#5

/-- The registers after the edge. The exception part reads the old registers only
through bits that it leaves alone, so the three parts run one after the other. -/
def Cp0.next (c : Cp0) (int_i : BitVec 8) (w : Cp0Write) (e : Except) (x : ExcInfo) : Cp0 :=
  ((c.tick int_i).write w).except e x

/-! ## Outputs -/

/-- `exc_vec_addr_o` -/
def exc_vec_addr_o (c : Cp0) : Word := 0b10#2 ++ c.ebase_o.extractLsb' 12 18 ++ 0#12

/-- `data_o`, what MFC0 reads. A register with no arm leaves the value `held`. -/
def cp0_data_o (held : Word) (c : Cp0) (int_i : BitVec 8) (raddr_i : RegAddr) : Word :=
  if raddr_i = CP0_REG_INDEX then
    c.index_o.extractLsb' 31 1 ++ 0#27 ++ c.index_o.extractLsb' 0 4
  else if raddr_i = CP0_REG_ENTRYLO0 then
    0#2 ++ c.entrylo0_o.extractLsb' 6 24 ++ 0#3 ++ c.entrylo0_o.extractLsb' 0 3
  else if raddr_i = CP0_REG_ENTRYLO1 then
    0#2 ++ c.entrylo1_o.extractLsb' 6 24 ++ 0#3 ++ c.entrylo1_o.extractLsb' 0 3
  else if raddr_i = CP0_REG_BADVADDR then c.badvaddr_o
  else if raddr_i = CP0_REG_COUNT then c.count_o
  else if raddr_i = CP0_REG_ENTRYHI then
    c.entryhi_o.extractLsb' 13 19 ++ 0#5 ++ c.entryhi_o.extractLsb' 0 8
  else if raddr_i = CP0_REG_COMPARE then c.compare_o
  else if raddr_i = CP0_REG_STATUS then c.status_o
  else if raddr_i = CP0_REG_EPC then c.epc_o
  else if raddr_i = CP0_REG_CAUSE then
    c.cause_o.extractLsb' 31 1 ++ 0#7 ++ c.cause_o.extractLsb' 23 1 ++ 0#7 ++ int_i ++ 0#1 ++
      c.cause_o.extractLsb' 2 5 ++ 0#2
  else if raddr_i = CP0_REG_EBASE then 0b10#2 ++ c.ebase_o.extractLsb' 12 18 ++ 0#12
  else held

end nehcpu.cpu
