-- The constants of `defines.v`. The operation codes that pass from stage to
-- stage are enumerations here; `AluOp.code_injective` and its siblings say that
-- the bit patterns of the source tell them apart too.
import Mathlib.Tactic.Common
import Mathlib.Data.BitVec

namespace nehcpu.cpu

/-- A value on `RegBus`, `InstBus` or `InstAddrBus`. -/
abbrev Word := BitVec 32

/-- A value on `RegAddrBus`. -/
abbrev RegAddr := BitVec 5

/-! The places of the bits that are read one by one, on a `RegBus` and in `stall` -/

theorem bit0_lt : 0 < 32 := by decide
theorem bit1_lt : 1 < 32 := by decide
theorem bit12_lt : 12 < 32 := by decide
theorem bit31_lt : 31 < 32 := by decide
theorem stall0_lt : 0 < 6 := by decide
theorem stall1_lt : 1 < 6 := by decide
theorem stall2_lt : 2 < 6 := by decide
theorem stall3_lt : 3 < 6 := by decide
theorem stall4_lt : 4 < 6 := by decide

abbrev ZeroWord : Word := 0#32
abbrev NOPRegAddr : RegAddr := 0#5

/-! ## Instruction fields -/

abbrev EXE_AND : BitVec 6 := 0b100100#6
abbrev EXE_OR : BitVec 6 := 0b100101#6
abbrev EXE_XOR : BitVec 6 := 0b100110#6
abbrev EXE_NOR : BitVec 6 := 0b100111#6
abbrev EXE_ANDI : BitVec 6 := 0b001100#6
abbrev EXE_ORI : BitVec 6 := 0b001101#6
abbrev EXE_XORI : BitVec 6 := 0b001110#6
abbrev EXE_LUI : BitVec 6 := 0b001111#6
abbrev EXE_SLL : BitVec 6 := 0b000000#6
abbrev EXE_SLLV : BitVec 6 := 0b000100#6
abbrev EXE_SRL : BitVec 6 := 0b000010#6
abbrev EXE_SRLV : BitVec 6 := 0b000110#6
abbrev EXE_SRA : BitVec 6 := 0b000011#6
abbrev EXE_SRAV : BitVec 6 := 0b000111#6
abbrev EXE_MFHI : BitVec 6 := 0b010000#6
abbrev EXE_MTHI : BitVec 6 := 0b010001#6
abbrev EXE_MFLO : BitVec 6 := 0b010010#6
abbrev EXE_MTLO : BitVec 6 := 0b010011#6
abbrev EXE_SLT : BitVec 6 := 0b101010#6
abbrev EXE_SLTU : BitVec 6 := 0b101011#6
abbrev EXE_SLTI : BitVec 6 := 0b001010#6
abbrev EXE_SLTIU : BitVec 6 := 0b001011#6
abbrev EXE_SUBU : BitVec 6 := 0b100011#6
abbrev EXE_ADDU : BitVec 6 := 0b100001#6
abbrev EXE_ADDIU : BitVec 6 := 0b001001#6
abbrev EXE_MULT : BitVec 6 := 0b011000#6
abbrev EXE_J : BitVec 6 := 0b000010#6
abbrev EXE_JAL : BitVec 6 := 0b000011#6
abbrev EXE_JALR : BitVec 6 := 0b001001#6
abbrev EXE_JR : BitVec 6 := 0b001000#6
abbrev EXE_BEQ : BitVec 6 := 0b000100#6
abbrev EXE_BGEZ : BitVec 5 := 0b00001#5
abbrev EXE_BGTZ : BitVec 6 := 0b000111#6
abbrev EXE_BLEZ : BitVec 6 := 0b000110#6
abbrev EXE_BLTZ : BitVec 5 := 0b00000#5
abbrev EXE_BNE : BitVec 6 := 0b000101#6
abbrev EXE_LB : BitVec 6 := 0b100000#6
abbrev EXE_LBU : BitVec 6 := 0b100100#6
abbrev EXE_LHU : BitVec 6 := 0b100101#6
abbrev EXE_LW : BitVec 6 := 0b100011#6
abbrev EXE_SB : BitVec 6 := 0b101000#6
abbrev EXE_SW : BitVec 6 := 0b101011#6
abbrev EXE_SYSCALL : BitVec 6 := 0b001100#6
abbrev EXE_CACHE : BitVec 6 := 0b101111#6
abbrev EXE_SPECIAL_INST : BitVec 6 := 0b000000#6
abbrev EXE_REGIMM_INST : BitVec 6 := 0b000001#6
abbrev EXE_ERET : Word := 0b01000010000000000000000000011000#32
abbrev EXE_TLBWI : Word := 0b01000010000000000000000000000010#32

/-! ## Operation codes -/

/-- `AluOpBus`: what the later stages do for an instruction. -/
inductive AluOp
  | AND | OR | XOR | NOR
  | SLL | SRL | SRA
  | MFHI | MTHI | MFLO | MTLO
  | SLT | SLTU | SUBU | ADDU | ADDIU | MULT
  | J | JAL | JALR | JR | BEQ | BGEZ | BGTZ | BLEZ | BLTZ | BNE
  | LB | LBU | LHU | LW | SB | SW
  | MFC0 | MTC0 | NOP | SYSCALL | ERET | TLBWI
deriving DecidableEq, Repr

/-- The `EXE_*_OP` patterns. -/
def AluOp.code : AluOp → BitVec 8
  | AND => 0b00100100#8 | OR => 0b00100101#8 | XOR => 0b00100110#8 | NOR => 0b00100111#8
  | SLL => 0b01111100#8 | SRL => 0b00000010#8 | SRA => 0b00000011#8
  | MFHI => 0b00010000#8 | MTHI => 0b00010001#8 | MFLO => 0b00010010#8 | MTLO => 0b00010011#8
  | SLT => 0b00101010#8 | SLTU => 0b00101011#8 | SUBU => 0b00100011#8 | ADDU => 0b00100001#8
  | ADDIU => 0b01010110#8 | MULT => 0b00011000#8
  | J => 0b01001111#8 | JAL => 0b01010000#8 | JALR => 0b00001001#8 | JR => 0b00001000#8
  | BEQ => 0b01010001#8 | BGEZ => 0b01000001#8 | BGTZ => 0b01010100#8 | BLEZ => 0b01010011#8
  | BLTZ => 0b01000000#8 | BNE => 0b01010010#8
  | LB => 0b11100000#8 | LBU => 0b11100100#8 | LHU => 0b11100101#8 | LW => 0b11100011#8
  | SB => 0b11101000#8 | SW => 0b11101011#8
  | MFC0 => 0b01011101#8 | MTC0 => 0b01100000#8 | NOP => 0b00000000#8
  | SYSCALL => 0b00001100#8 | ERET => 0b01101011#8 | TLBWI => 0b01000010#8

/-- The operations in the order of their constructors. -/
def AluOp.all : List AluOp :=
  [AND, OR, XOR, NOR, SLL, SRL, SRA, MFHI, MTHI, MFLO, MTLO, SLT, SLTU, SUBU, ADDU, ADDIU, MULT,
    J, JAL, JALR, JR, BEQ, BGEZ, BGTZ, BLEZ, BLTZ, BNE, LB, LBU, LHU, LW, SB, SW, MFC0, MTC0, NOP,
    SYSCALL, ERET, TLBWI]

theorem AluOp.mem_all (a : AluOp) : a ∈ AluOp.all := by cases a <;> decide

theorem AluOp.code_injective : Function.Injective AluOp.code := by
  have h : ∀ a ∈ AluOp.all, ∀ b ∈ AluOp.all, a.code = b.code → a = b := by decide +kernel
  exact fun a b => h a a.mem_all b b.mem_all

/-- `AluSelBus`: which result of `ex` is the value to write. `EXE_RES_MUL` has no use. -/
inductive AluSel
  | NOP | LOGIC | SHIFT | MOVE | ARITHMETIC | JUMP_BRANCH | LOAD_STORE
deriving DecidableEq, Repr

/-- The `EXE_RES_*` patterns. -/
def AluSel.code : AluSel → BitVec 3
  | NOP => 0b000#3 | LOGIC => 0b001#3 | SHIFT => 0b010#3 | MOVE => 0b011#3
  | ARITHMETIC => 0b100#3 | JUMP_BRANCH => 0b110#3 | LOAD_STORE => 0b111#3

theorem AluSel.code_injective : Function.Injective AluSel.code := by
  intro a b
  cases a <;> cases b <;> decide

/-! ## CP0 registers -/

abbrev CP0_REG_INDEX : RegAddr := 0b00000#5
abbrev CP0_REG_ENTRYLO0 : RegAddr := 0b00010#5
abbrev CP0_REG_ENTRYLO1 : RegAddr := 0b00011#5
abbrev CP0_REG_BADVADDR : RegAddr := 0b01000#5
abbrev CP0_REG_COUNT : RegAddr := 0b01001#5
abbrev CP0_REG_ENTRYHI : RegAddr := 0b01010#5
abbrev CP0_REG_COMPARE : RegAddr := 0b01011#5
abbrev CP0_REG_STATUS : RegAddr := 0b01100#5
abbrev CP0_REG_CAUSE : RegAddr := 0b01101#5
abbrev CP0_REG_EPC : RegAddr := 0b01110#5
abbrev CP0_REG_EBASE : RegAddr := 0b01111#5

/-! ## Exceptions -/

/-- The exception flags that `id` and `ex` collect for an instruction: bits 8 to 13 of
`excepttype`. The other bits are zero in every stage. -/
structure ExcFlags where
  /-- bit 8 -/
  syscall : Bool
  /-- bit 9, `instvalid`: one means invalid -/
  instInvalid : Bool
  /-- bit 10 -/
  adel : Bool
  /-- bit 11 -/
  ades : Bool
  /-- bit 12 -/
  eret : Bool
  /-- bit 13 -/
  tlblInst : Bool
deriving DecidableEq, Repr

def ExcFlags.clear : ExcFlags := ⟨false, false, false, false, false, false⟩

/-- The exception that `mem` takes: `excepttype_o`. -/
inductive Except
  | none | interrupt | syscall | instInvalid | adel | ades | eret
  | tlblInst | tlbMod | tlblData | tlbs
deriving DecidableEq, Repr

/-- The words of `mem.v`, `ctrl.v` and `cp0_reg.v` for the exceptions. -/
def Except.code : Except → Word
  | none => 0x00000000#32 | interrupt => 0x00000001#32 | syscall => 0x00000008#32
  | instInvalid => 0x0000000a#32 | adel => 0x0000000b#32 | ades => 0x0000000c#32
  | eret => 0x0000000e#32 | tlblInst => 0x0000000f#32 | tlbMod => 0x00000010#32
  | tlblData => 0x00000011#32 | tlbs => 0x00000012#32

theorem Except.code_injective : Function.Injective Except.code := by
  intro a b
  cases a <;> cases b <;> decide

/-! ## Writes that travel down the pipeline -/

/-- A general register write: `wreg`, `wd` and `wdata` of a stage. -/
structure RegWrite where
  wreg : Bool
  wd : RegAddr
  wdata : Word
deriving DecidableEq, Repr

/-- A write of the HI/LO pair: `whilo`, `hi` and `lo` of a stage. -/
structure HiLoWrite where
  whilo : Bool
  hi : Word
  lo : Word
deriving DecidableEq, Repr

/-- A CP0 write: `cp0_reg_we`, `cp0_reg_write_addr` and `cp0_reg_data` of a stage. -/
structure Cp0Write where
  cp0_reg_we : Bool
  cp0_reg_write_addr : RegAddr
  cp0_reg_data : Word
deriving DecidableEq, Repr

def RegWrite.off : RegWrite := ⟨false, NOPRegAddr, ZeroWord⟩
def HiLoWrite.off : HiLoWrite := ⟨false, ZeroWord, ZeroWord⟩
def Cp0Write.off : Cp0Write := ⟨false, 0#5, ZeroWord⟩

end nehcpu.cpu
