-- The decode stage, `id.v`: the fields that an instruction word sets, the choice
-- of its two operands, and its branch.
import Nehcpu.Cpu.Defines

namespace nehcpu.cpu

/-! ## Fields of the instruction word -/

def op (inst : Word) : BitVec 6 := inst.extractLsb' 26 6
def op2 (inst : Word) : BitVec 5 := inst.extractLsb' 6 5
def op3 (inst : Word) : BitVec 6 := inst.extractLsb' 0 6
def op4 (inst : Word) : BitVec 5 := inst.extractLsb' 16 5

/-- `inst_i[25:21]` -/
def rsOf (inst : Word) : RegAddr := inst.extractLsb' 21 5
/-- `inst_i[20:16]` -/
def rtOf (inst : Word) : RegAddr := inst.extractLsb' 16 5
/-- `inst_i[15:11]` -/
def rdOf (inst : Word) : RegAddr := inst.extractLsb' 11 5
/-- `inst_i[15:0]` -/
def immOf (inst : Word) : BitVec 16 := inst.extractLsb' 0 16

abbrev InstValid : Bool := false
abbrev InstInvalid : Bool := true

/-! ## Decoding -/

/-- What the big `always` block of `id.v` sets from the word alone. -/
structure Decode where
  aluop_o : AluOp
  alusel_o : AluSel
  wd_o : RegAddr
  wreg_o : Bool
  instvalid : Bool
  reg1_read_o : Bool
  reg2_read_o : Bool
  reg1_addr_o : RegAddr
  reg2_addr_o : RegAddr
  imm : Word
  excepttype_is_syscall : Bool
  excepttype_is_eret : Bool
deriving DecidableEq, Repr

/-- The values before `case (op)`. -/
def Decode.start (inst : Word) : Decode where
  aluop_o := .NOP
  alusel_o := .NOP
  wd_o := rdOf inst
  wreg_o := false
  instvalid := InstInvalid
  reg1_read_o := false
  reg2_read_o := false
  reg1_addr_o := rsOf inst
  reg2_addr_o := rtOf inst
  imm := ZeroWord
  excepttype_is_syscall := false
  excepttype_is_eret := false

namespace Decode

/-- The arms of `case (op3)` and the load, store and branch arms: they set the operation,
the write enable and the two read enables. -/
def arm (d : Decode) (aluop : AluOp) (alusel : AluSel) (wreg read1 read2 : Bool) : Decode :=
  { d with aluop_o := aluop, alusel_o := alusel, wreg_o := wreg, reg1_read_o := read1,
           reg2_read_o := read2, instvalid := InstValid }

/-- The arms with an immediate operand: they read `rs` and write `rt`. -/
def immArm (d : Decode) (inst : Word) (aluop : AluOp) (alusel : AluSel) (imm : Word) : Decode :=
  { d.arm aluop alusel true true false with imm := imm, wd_o := rtOf inst }

/-- The arms of a load: they read `rs` and write `rt`. -/
def loadArm (d : Decode) (inst : Word) (aluop : AluOp) : Decode :=
  { d.arm aluop .LOAD_STORE true true false with wd_o := rtOf inst }

/-- `case (op3)`, for `EXE_SPECIAL_INST` with `op2` zero. -/
def special (d : Decode) (inst : Word) : Decode :=
  if op3 inst = EXE_OR then d.arm .OR .LOGIC true true true
  else if op3 inst = EXE_AND then d.arm .AND .LOGIC true true true
  else if op3 inst = EXE_XOR then d.arm .XOR .LOGIC true true true
  else if op3 inst = EXE_NOR then d.arm .NOR .LOGIC true true true
  else if op3 inst = EXE_SLLV then d.arm .SLL .SHIFT true true true
  else if op3 inst = EXE_SRLV then d.arm .SRL .SHIFT true true true
  else if op3 inst = EXE_SRAV then d.arm .SRA .SHIFT true true true
  else if op3 inst = EXE_MFHI then d.arm .MFHI .MOVE true false false
  else if op3 inst = EXE_MFLO then d.arm .MFLO .MOVE true false false
  else if op3 inst = EXE_MTHI then d.arm .MTHI .MOVE false true false
  else if op3 inst = EXE_MTLO then d.arm .MTLO .MOVE false true false
  else if op3 inst = EXE_ADDU then d.arm .ADDU .ARITHMETIC true true true
  else if op3 inst = EXE_SLT then d.arm .SLT .ARITHMETIC true true true
  else if op3 inst = EXE_SLTU then d.arm .SLTU .ARITHMETIC true true true
  else if op3 inst = EXE_SUBU then d.arm .SUBU .ARITHMETIC true true true
  -- the source sets no `alusel_o` here, so the default stays
  else if op3 inst = EXE_MULT then d.arm .MULT d.alusel_o false true true
  else if op3 inst = EXE_JR then d.arm .JR .JUMP_BRANCH false true false
  else if op3 inst = EXE_JALR then
    { d.arm .JALR .JUMP_BRANCH true true false with wd_o := rdOf inst }
  else if op3 inst = EXE_SYSCALL then
    { d.arm .SYSCALL .NOP false false false with excepttype_is_syscall := true }
  else d

/-- `case (op4)`, for `EXE_REGIMM_INST`. -/
def regimm (d : Decode) (inst : Word) : Decode :=
  if op4 inst = EXE_BGEZ then d.arm .BGEZ .JUMP_BRANCH false true false
  else if op4 inst = EXE_BLTZ then d.arm .BLTZ .JUMP_BRANCH false true false
  else d

/-- `case (op)` -/
def caseOp (d : Decode) (inst : Word) : Decode :=
  if op inst = EXE_SPECIAL_INST then
    if op2 inst = 0b00000#5 then d.special inst else d
  else if op inst = EXE_ORI then d.immArm inst .OR .LOGIC ((immOf inst).zeroExtend 32)
  else if op inst = EXE_ANDI then d.immArm inst .AND .LOGIC ((immOf inst).zeroExtend 32)
  else if op inst = EXE_XORI then d.immArm inst .XOR .LOGIC ((immOf inst).zeroExtend 32)
  -- LUI is an OR of `rs` and the shifted immediate
  else if op inst = EXE_LUI then d.immArm inst .OR .LOGIC (immOf inst ++ 0#16)
  else if op inst = EXE_SLTI then
    d.immArm inst .SLT .ARITHMETIC ((immOf inst).signExtend 32)
  else if op inst = EXE_SLTIU then
    d.immArm inst .SLTU .ARITHMETIC ((immOf inst).zeroExtend 32)
  else if op inst = EXE_ADDIU then
    d.immArm inst .ADDIU .ARITHMETIC ((immOf inst).signExtend 32)
  else if op inst = EXE_J then d.arm .J .JUMP_BRANCH false false false
  else if op inst = EXE_JAL then
    { d.arm .JAL .JUMP_BRANCH true false false with wd_o := 0b11111#5 }
  else if op inst = EXE_BEQ then d.arm .BEQ .JUMP_BRANCH false true true
  else if op inst = EXE_BGTZ then d.arm .BGTZ .JUMP_BRANCH false true false
  else if op inst = EXE_BLEZ then d.arm .BLEZ .JUMP_BRANCH false true false
  else if op inst = EXE_BNE then d.arm .BNE .JUMP_BRANCH false true true
  else if op inst = EXE_REGIMM_INST then d.regimm inst
  else if op inst = EXE_LB then d.loadArm inst .LB
  else if op inst = EXE_LBU then d.loadArm inst .LBU
  else if op inst = EXE_LHU then d.loadArm inst .LHU
  else if op inst = EXE_LW then d.loadArm inst .LW
  else if op inst = EXE_SB then d.arm .SB .LOAD_STORE false true true
  else if op inst = EXE_SW then d.arm .SW .LOAD_STORE false true true
  -- CACHE does nothing
  else if op inst = EXE_CACHE then d.arm .NOP .NOP false false false
  else d

/-- The three shifts by `sa`: `imm[4:0] <= inst_i[10:6]`. -/
def shiftArm (d : Decode) (inst : Word) (aluop : AluOp) : Decode :=
  { d.arm aluop .SHIFT true false true with
      imm := d.imm.extractLsb' 5 27 ++ op2 inst, wd_o := rdOf inst }

/-- `if (inst_i[31:21] == 0)`, after `case (op)` -/
def shifts (d : Decode) (inst : Word) : Decode :=
  if inst.extractLsb' 21 11 = 0b00000000000#11 then
    if op3 inst = EXE_SLL then d.shiftArm inst .SLL
    else if op3 inst = EXE_SRL then d.shiftArm inst .SRL
    else if op3 inst = EXE_SRA then d.shiftArm inst .SRA
    else d
  else d

def mfc0 (d : Decode) (inst : Word) : Decode :=
  if inst.extractLsb' 21 11 = 0b01000000000#11 ∧ inst.extractLsb' 0 11 = 0b00000000000#11 then
    { d.arm .MFC0 .MOVE true false false with wd_o := rtOf inst }
  else d

/-- Four values of the `sel` field pass, and none of them is looked at again. -/
def mtc0 (d : Decode) (inst : Word) : Decode :=
  if inst.extractLsb' 21 11 = 0b01000000100#11 ∧
      (inst.extractLsb' 0 11 = 0b00000000000#11 ∨ inst.extractLsb' 0 11 = 0b00000000001#11 ∨
        inst.extractLsb' 0 11 = 0b00000000010#11 ∨ inst.extractLsb' 0 11 = 0b00000000011#11) then
    { d.arm .MTC0 .NOP false true false with reg1_addr_o := rtOf inst }
  else d

def eret (d : Decode) (inst : Word) : Decode :=
  if inst = EXE_ERET then { d.arm .ERET .NOP false false false with excepttype_is_eret := true }
  else d

def tlbwi (d : Decode) (inst : Word) : Decode :=
  if inst = EXE_TLBWI then d.arm .TLBWI .NOP false false false
  else d

end Decode

/-- The whole block: `case (op)`, then the `if`s after it, of which a later one wins. -/
def decode (inst : Word) : Decode :=
  (((((Decode.start inst).caseOp inst).shifts inst).mfc0 inst).mtc0 inst).eret inst |>.tlbwi inst

/-! ## Operands -/

/-- What `id` sees of the `ex` stage and of the `mem` stage. -/
structure Bypass where
  ex_aluop_i : AluOp
  ex : RegWrite
  mem : RegWrite

def pre_inst_is_load (aluop : AluOp) : Bool :=
  aluop = .LB || aluop = .LBU || aluop = .LHU || aluop = .LW

/-- `stallreq_for_reg1_loadrelate`, and the same for port 2. -/
def stallreq_for_reg_loadrelate (b : Bypass) (reg_read : Bool) (reg_addr : RegAddr) : Bool :=
  pre_inst_is_load b.ex_aluop_i && b.ex.wd == reg_addr && reg_read

/-- `reg1_o`, and the same for `reg2_o`. No branch assigns it on a load-use stall, so it
keeps the value `held`. -/
def reg_o (held : Word) (b : Bypass) (reg_read : Bool) (reg_addr : RegAddr)
    (reg_data_i imm : Word) : Word :=
  if stallreq_for_reg_loadrelate b reg_read reg_addr then held
  else if reg_read && b.ex.wreg && b.ex.wd == reg_addr then b.ex.wdata
  else if reg_read && b.mem.wreg && b.mem.wd == reg_addr then b.mem.wdata
  else if reg_read then reg_data_i
  else imm

/-! ## Branches -/

/-- The four outputs of a branch or a jump. -/
structure BranchOut where
  link_addr_o : Word
  branch_target_addr_o : Word
  branch_flag_o : Bool
  next_inst_in_delayslot_o : Bool
deriving DecidableEq, Repr

def BranchOut.no : BranchOut := ⟨ZeroWord, ZeroWord, false, false⟩

def BranchOut.to (target link : Word) : BranchOut := ⟨link, target, true, true⟩

def pc_plus_4 (pc : Word) : Word := pc + 4#32
def pc_plus_8 (pc : Word) : Word := pc + 8#32

/-- `{{14{inst_i[15]}}, inst_i[15:0], 2'b00}` -/
def imm_sll2_signed (inst : Word) : Word := (immOf inst ++ 0#2).signExtend 32

/-- The target of J and JAL. -/
def jumpTarget (inst pc : Word) : Word :=
  (pc_plus_4 pc).extractLsb' 28 4 ++ inst.extractLsb' 0 26 ++ 0#2

/-- A conditional branch. -/
def branchIf (cond : Bool) (inst pc : Word) : BranchOut :=
  if cond then .to (pc_plus_4 pc + imm_sll2_signed inst) ZeroWord else .no

/-- The branch part of the same `always` block, from the operands. -/
def branch (inst pc reg1 reg2 : Word) : BranchOut :=
  if op inst = EXE_SPECIAL_INST then
    if op2 inst = 0b00000#5 ∧ op3 inst = EXE_JR then .to reg1 ZeroWord
    else if op2 inst = 0b00000#5 ∧ op3 inst = EXE_JALR then .to reg1 (pc_plus_8 pc)
    else .no
  else if op inst = EXE_J then .to (jumpTarget inst pc) ZeroWord
  else if op inst = EXE_JAL then .to (jumpTarget inst pc) (pc_plus_8 pc)
  else if op inst = EXE_BEQ then branchIf (reg1 == reg2) inst pc
  else if op inst = EXE_BGTZ then branchIf (!getElem reg1 31 bit31_lt && reg1 != ZeroWord) inst pc
  else if op inst = EXE_BLEZ then branchIf (getElem reg1 31 bit31_lt || reg1 == ZeroWord) inst pc
  else if op inst = EXE_BNE then branchIf (reg1 != reg2) inst pc
  else if op inst = EXE_REGIMM_INST then
    if op4 inst = EXE_BGEZ then branchIf (!getElem reg1 31 bit31_lt) inst pc
    else if op4 inst = EXE_BLTZ then branchIf (getElem reg1 31 bit31_lt) inst pc
    else .no
  else .no

/-- `excepttype_o`: the fetch miss counts only for an instruction with an address. -/
def id_excepttype (d : Decode) (pc : Word) (is_tlbl_inst : Bool) : ExcFlags where
  syscall := d.excepttype_is_syscall
  instInvalid := d.instvalid
  adel := false
  ades := false
  eret := d.excepttype_is_eret
  tlblInst := is_tlbl_inst && pc != ZeroWord

end nehcpu.cpu
