-- The execute stage, `ex.v`: the results of an instruction, and the HI/LO pair
-- and the CP0 value that it sees through the stages below.
import Nehcpu.Cpu.Decode

namespace nehcpu.cpu

/-- The registers of `id_ex.v`, which are the inputs of `ex.v`. -/
structure IdEx where
  ex_aluop : AluOp
  ex_alusel : AluSel
  ex_reg1 : Word
  ex_reg2 : Word
  ex_wd : RegAddr
  ex_wreg : Bool
  ex_link_addr : Word
  ex_is_in_delayslot : Bool
  ex_inst : Word
  ex_excepttype : ExcFlags
  ex_current_inst_addr : Word
  /-- whether the instruction now in `id` is in a delay slot -/
  is_in_delayslot_o : Bool
deriving DecidableEq, Repr

/-- What `id` puts into these registers for the word `inst` at `pc`. -/
def idOut (inst pc reg1 reg2 : Word) (is_in_delayslot_i is_tlbl_inst : Bool) : IdEx where
  ex_aluop := (decode inst).aluop_o
  ex_alusel := (decode inst).alusel_o
  ex_reg1 := reg1
  ex_reg2 := reg2
  ex_wd := (decode inst).wd_o
  ex_wreg := (decode inst).wreg_o
  ex_link_addr := (branch inst pc reg1 reg2).link_addr_o
  ex_is_in_delayslot := is_in_delayslot_i
  ex_inst := inst
  ex_excepttype := id_excepttype (decode inst) pc is_tlbl_inst
  ex_current_inst_addr := pc
  is_in_delayslot_o := (branch inst pc reg1 reg2).next_inst_in_delayslot_o

/-- The HI/LO inputs of `ex.v`: of `mem`, of `wb` and of the register pair. -/
structure HiLoFwd where
  mem : HiLoWrite
  wb : HiLoWrite
  hi_i : Word
  lo_i : Word

/-- `{HI, LO}`: the youngest write below wins. -/
def HILO (f : HiLoFwd) : Word × Word :=
  if f.mem.whilo then (f.mem.hi, f.mem.lo)
  else if f.wb.whilo then (f.wb.hi, f.wb.lo)
  else (f.hi_i, f.lo_i)

/-- The CP0 inputs of `ex.v`. -/
structure Cp0Fwd where
  mem : Cp0Write
  wb : Cp0Write
  cp0_reg_data_i : Word

/-- The value of an MFC0. -/
def mfc0Value (f : Cp0Fwd) (addr : RegAddr) : Word :=
  if f.mem.cp0_reg_we && f.mem.cp0_reg_write_addr == addr then f.mem.cp0_reg_data
  else if f.wb.cp0_reg_we && f.wb.cp0_reg_write_addr == addr then f.wb.cp0_reg_data
  else f.cp0_reg_data_i

/-! ## Results -/

def logicout (aluop : AluOp) (reg1 reg2 : Word) : Word :=
  match aluop with
  | .OR => reg1 ||| reg2
  | .AND => reg1 &&& reg2
  | .NOR => ~~~(reg1 ||| reg2)
  | .XOR => reg1 ^^^ reg2
  | _ => ZeroWord

/-- `{32{reg2_i[31]}}` -/
def signFill (w : Word) : Word := if w[31] then BitVec.allOnes 32 else 0#32

def shiftres (aluop : AluOp) (reg1 reg2 : Word) : Word :=
  let sa := reg1.extractLsb' 0 5
  match aluop with
  | .SLL => reg2 <<< sa
  | .SRL => reg2 >>> sa
  | .SRA => (signFill reg2 <<< (32#6 - (0#1 ++ sa))) ||| (reg2 >>> sa)
  | _ => ZeroWord

/-- `moveres` keeps the value `held` on every operation that it does not name. -/
def moveres (held : Word) (aluop : AluOp) (hilo : Word × Word) (cp0 : Cp0Fwd) (inst : Word) :
    Word :=
  match aluop with
  | .MFHI => hilo.1
  | .MFLO => hilo.2
  | .MFC0 => mfc0Value cp0 (rdOf inst)
  | _ => held

/-- `cp0_reg_read_addr_o`, which only an MFC0 sets. -/
def cp0_reg_read_addr_o (held : RegAddr) (aluop : AluOp) (inst : Word) : RegAddr :=
  match aluop with
  | .MFC0 => rdOf inst
  | _ => held

def reg2_i_mux (aluop : AluOp) (reg2 : Word) : Word :=
  if aluop = .SUBU ∨ aluop = .SLT then ~~~reg2 + 1#32 else reg2

def result_sum (aluop : AluOp) (reg1 reg2 : Word) : Word := reg1 + reg2_i_mux aluop reg2

def reg1_lt_reg2 (aluop : AluOp) (reg1 reg2 : Word) : Bool :=
  if aluop = .SLT then
    (reg1[31] && !reg2[31]) || (!reg1[31] && !reg2[31] && (result_sum aluop reg1 reg2)[31]) ||
      (reg1[31] && reg2[31] && (result_sum aluop reg1 reg2)[31])
  else reg1.ult reg2

def arithres (aluop : AluOp) (reg1 reg2 : Word) : Word :=
  match aluop with
  | .SLT | .SLTU => (BitVec.ofBool (reg1_lt_reg2 aluop reg1 reg2)).zeroExtend 32
  | .ADDIU | .ADDU | .SUBU => result_sum aluop reg1 reg2
  | _ => ZeroWord

/-- `mult_op1` and `mult_op2`: the magnitude of a signed operand. -/
def mult_op (w : Word) : Word := if w[31] then ~~~w + 1#32 else w

def hilo_temp (reg1 reg2 : Word) : BitVec 64 :=
  (mult_op reg1).zeroExtend 64 * (mult_op reg2).zeroExtend 64

/-- `mulres` keeps the value `held` on everything but MULT. -/
def mulres (held : BitVec 64) (aluop : AluOp) (reg1 reg2 : Word) : BitVec 64 :=
  match aluop with
  | .MULT =>
    if reg1[31] ^^ (reg2[31] == true) then ~~~hilo_temp reg1 reg2 + 1#64
    else hilo_temp reg1 reg2
  | _ => held

/-! ## The outputs of the stage -/

/-- The values that `ex.v` keeps where no branch assigns them. -/
structure ExHeld where
  moveres : Word
  mulres : BitVec 64
  cp0_reg_read_addr_o : RegAddr
deriving DecidableEq, Repr

/-- `wdata_o` -/
def ex_wdata_o (held : ExHeld) (x : IdEx) (hilo : Word × Word) (cp0 : Cp0Fwd) : Word :=
  match x.ex_alusel with
  | .LOGIC => logicout x.ex_aluop x.ex_reg1 x.ex_reg2
  | .SHIFT => shiftres x.ex_aluop x.ex_reg1 x.ex_reg2
  | .MOVE => moveres held.moveres x.ex_aluop hilo cp0 x.ex_inst
  | .ARITHMETIC => arithres x.ex_aluop x.ex_reg1 x.ex_reg2
  | .JUMP_BRANCH => x.ex_link_addr
  | _ => ZeroWord

/-- `wd_o`, `wreg_o` and `wdata_o` -/
def ex_reg (held : ExHeld) (x : IdEx) (hilo : Word × Word) (cp0 : Cp0Fwd) : RegWrite :=
  ⟨x.ex_wreg, x.ex_wd, ex_wdata_o held x hilo cp0⟩

/-- `whilo_o`, `hi_o` and `lo_o` -/
def ex_hilo (held : ExHeld) (x : IdEx) (hilo : Word × Word) : HiLoWrite :=
  match x.ex_aluop with
  | .MTHI => ⟨true, x.ex_reg1, hilo.2⟩
  | .MTLO => ⟨true, hilo.1, x.ex_reg1⟩
  | .MULT =>
    let m := mulres held.mulres x.ex_aluop x.ex_reg1 x.ex_reg2
    ⟨true, m.extractLsb' 32 32, m.extractLsb' 0 32⟩
  | _ => .off

/-- The CP0 write of an MTC0. -/
def ex_cp0 (x : IdEx) : Cp0Write :=
  match x.ex_aluop with
  | .MTC0 => ⟨true, rdOf x.ex_inst, x.ex_reg1⟩
  | _ => .off

/-- `mem_addr_o` -/
def ex_mem_addr_o (x : IdEx) : Word := x.ex_reg1 + (immOf x.ex_inst).signExtend 32

def is_ADES (x : IdEx) : Bool :=
  x.ex_aluop = .SW && (ex_mem_addr_o x).extractLsb' 0 2 != 0b00#2

def is_ADEL (x : IdEx) : Bool :=
  (x.ex_aluop = .LHU && (ex_mem_addr_o x)[0]) ||
    (x.ex_aluop = .LW && (ex_mem_addr_o x).extractLsb' 0 2 != 0b00#2)

/-- `excepttype_o` -/
def ex_excepttype_o (x : IdEx) : ExcFlags :=
  { x.ex_excepttype with ades := is_ADES x, adel := is_ADEL x }

end nehcpu.cpu
