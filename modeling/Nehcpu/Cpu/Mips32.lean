-- The integer instructions of MIPS32 that the CPU has, as the architecture gives
-- them: the opcode and function tables, and what each instruction does. Nothing
-- here is taken from the CPU.
import Nehcpu.Cpu.Defines

namespace nehcpu.mips32

open nehcpu.cpu (Word RegAddr)

/-! ## Instructions -/

inductive RegFn
  | addu | subu | and | or | xor | nor | slt | sltu
deriving DecidableEq, Repr

inductive ShiftFn
  | sll | srl | sra
deriving DecidableEq, Repr

inductive ImmFn
  | addiu | slti | sltiu | andi | ori | xori
deriving DecidableEq, Repr

inductive EqCond
  | beq | bne
deriving DecidableEq, Repr

inductive ZeroCond
  | blez | bgtz | bltz | bgez
deriving DecidableEq, Repr

inductive Instr
  | reg (f : RegFn) (rd rs rt : RegAddr)
  | shift (f : ShiftFn) (rd rt : RegAddr) (sa : BitVec 5)
  | shiftv (f : ShiftFn) (rd rt rs : RegAddr)
  | imm (f : ImmFn) (rt rs : RegAddr) (immediate : BitVec 16)
  | lui (rt : RegAddr) (immediate : BitVec 16)
  | mfhi (rd : RegAddr)
  | mflo (rd : RegAddr)
  | mthi (rs : RegAddr)
  | mtlo (rs : RegAddr)
  | mult (rs rt : RegAddr)
  | branchEq (c : EqCond) (rs rt : RegAddr) (offset : BitVec 16)
  | branchZero (c : ZeroCond) (rs : RegAddr) (offset : BitVec 16)
  | j (instr_index : BitVec 26)
  | jal (instr_index : BitVec 26)
  | jr (rs : RegAddr)
  | jalr (rd rs : RegAddr)
deriving DecidableEq, Repr

/-! ## Encoding -/

def RegFn.funct : RegFn → BitVec 6
  | addu => 0b100001#6 | subu => 0b100011#6 | and => 0b100100#6 | or => 0b100101#6
  | xor => 0b100110#6 | nor => 0b100111#6 | slt => 0b101010#6 | sltu => 0b101011#6

def ShiftFn.funct : ShiftFn → BitVec 6
  | sll => 0b000000#6 | srl => 0b000010#6 | sra => 0b000011#6

/-- The function field of the shifts by a register. -/
def ShiftFn.functv : ShiftFn → BitVec 6
  | sll => 0b000100#6 | srl => 0b000110#6 | sra => 0b000111#6

def ImmFn.opcode : ImmFn → BitVec 6
  | addiu => 0b001001#6 | slti => 0b001010#6 | sltiu => 0b001011#6 | andi => 0b001100#6
  | ori => 0b001101#6 | xori => 0b001110#6

def EqCond.opcode : EqCond → BitVec 6
  | beq => 0b000100#6 | bne => 0b000101#6

/-- The instruction of a word whose opcode is SPECIAL. A field that the encoding wants to be
zero is looked at only where another instruction uses it. -/
def special (rs rt rd : RegAddr) (sa : BitVec 5) (funct : BitVec 6) : Option Instr :=
  if funct = ShiftFn.sll.funct then if rs = 0b00000#5 then some (.shift .sll rd rt sa) else none
  else if funct = ShiftFn.srl.funct then if rs = 0b00000#5 then some (.shift .srl rd rt sa) else none
  else if funct = ShiftFn.sra.funct then if rs = 0b00000#5 then some (.shift .sra rd rt sa) else none
  else if sa ≠ 0b00000#5 then none
  else if funct = ShiftFn.sll.functv then some (.shiftv .sll rd rt rs)
  else if funct = ShiftFn.srl.functv then some (.shiftv .srl rd rt rs)
  else if funct = ShiftFn.sra.functv then some (.shiftv .sra rd rt rs)
  else if funct = 0b001000#6 then some (.jr rs)
  else if funct = 0b001001#6 then some (.jalr rd rs)
  else if funct = 0b010000#6 then some (.mfhi rd)
  else if funct = 0b010001#6 then some (.mthi rs)
  else if funct = 0b010010#6 then some (.mflo rd)
  else if funct = 0b010011#6 then some (.mtlo rs)
  else if funct = 0b011000#6 then some (.mult rs rt)
  else if funct = RegFn.addu.funct then some (.reg .addu rd rs rt)
  else if funct = RegFn.subu.funct then some (.reg .subu rd rs rt)
  else if funct = RegFn.and.funct then some (.reg .and rd rs rt)
  else if funct = RegFn.or.funct then some (.reg .or rd rs rt)
  else if funct = RegFn.xor.funct then some (.reg .xor rd rs rt)
  else if funct = RegFn.nor.funct then some (.reg .nor rd rs rt)
  else if funct = RegFn.slt.funct then some (.reg .slt rd rs rt)
  else if funct = RegFn.sltu.funct then some (.reg .sltu rd rs rt)
  else none

/-- The instruction of a word whose opcode is not SPECIAL. -/
def byOpcode (opcode : BitVec 6) (rs rt : RegAddr) (immediate : BitVec 16)
    (instr_index : BitVec 26) : Option Instr :=
  if opcode = 0b000001#6 then
    if rt = 0b00000#5 then some (.branchZero .bltz rs immediate)
    else if rt = 0b00001#5 then some (.branchZero .bgez rs immediate)
    else none
  else if opcode = 0b000010#6 then some (.j instr_index)
  else if opcode = 0b000011#6 then some (.jal instr_index)
  else if opcode = EqCond.beq.opcode then some (.branchEq .beq rs rt immediate)
  else if opcode = EqCond.bne.opcode then some (.branchEq .bne rs rt immediate)
  else if opcode = 0b000110#6 then some (.branchZero .blez rs immediate)
  else if opcode = 0b000111#6 then some (.branchZero .bgtz rs immediate)
  else if opcode = ImmFn.addiu.opcode then some (.imm .addiu rt rs immediate)
  else if opcode = ImmFn.slti.opcode then some (.imm .slti rt rs immediate)
  else if opcode = ImmFn.sltiu.opcode then some (.imm .sltiu rt rs immediate)
  else if opcode = ImmFn.andi.opcode then some (.imm .andi rt rs immediate)
  else if opcode = ImmFn.ori.opcode then some (.imm .ori rt rs immediate)
  else if opcode = ImmFn.xori.opcode then some (.imm .xori rt rs immediate)
  else if opcode = 0b001111#6 then some (.lui rt immediate)
  else none

def instr (w : Word) : Option Instr :=
  if w.extractLsb' 26 6 = 0b000000#6 then
    special (w.extractLsb' 21 5) (w.extractLsb' 16 5) (w.extractLsb' 11 5) (w.extractLsb' 6 5)
      (w.extractLsb' 0 6)
  else
    byOpcode (w.extractLsb' 26 6) (w.extractLsb' 21 5) (w.extractLsb' 16 5)
      (w.extractLsb' 0 16) (w.extractLsb' 0 26)

/-! ## What an instruction does -/

/-- What an instruction leaves behind: a general register, the HI/LO pair, and the target of
a branch that is taken. -/
structure Outcome where
  dest : Option (RegAddr × Word)
  hilo : Option (Word × Word)
  target : Option Word
deriving DecidableEq, Repr

def Outcome.write (r : RegAddr) (value : Word) : Outcome := ⟨some (r, value), none, none⟩

def Outcome.writeHiLo (hi lo : Word) : Outcome := ⟨none, some (hi, lo), none⟩

def Outcome.jump (target : Word) : Outcome := ⟨none, none, some target⟩

def boolWord (b : Bool) : Word := if b then 1#32 else 0#32

def RegFn.value (a b : Word) : RegFn → Word
  | addu => a + b
  | subu => a - b
  | and => a &&& b
  | or => a ||| b
  | xor => a ^^^ b
  | nor => ~~~(a ||| b)
  | slt => boolWord (a.slt b)
  | sltu => boolWord (a.ult b)

def ShiftFn.value (a : Word) (n : Nat) : ShiftFn → Word
  | sll => a <<< n
  | srl => a >>> n
  | sra => a.sshiftRight n

/-- The arithmetic and both comparisons extend the immediate by its sign, the logical
operations by zeros. -/
def ImmFn.value (a : Word) (immediate : BitVec 16) : ImmFn → Word
  | addiu => a + immediate.signExtend 32
  | slti => boolWord (a.slt (immediate.signExtend 32))
  | sltiu => boolWord (a.ult (immediate.signExtend 32))
  | andi => a &&& immediate.zeroExtend 32
  | ori => a ||| immediate.zeroExtend 32
  | xori => a ^^^ immediate.zeroExtend 32

def EqCond.holds (a b : Word) : EqCond → Bool
  | beq => a == b
  | bne => a != b

def ZeroCond.holds (a : Word) : ZeroCond → Bool
  | blez => a.sle 0#32
  | bgtz => (0#32).slt a
  | bltz => a.slt 0#32
  | bgez => (0#32).sle a

/-- The target of a branch at `pc`: the offset counts words from the delay slot. -/
def branchTarget (pc : Word) (offset : BitVec 16) : Word :=
  pc + 4#32 + (offset.signExtend 32 <<< 2)

/-- The target of a jump at `pc`: it stays in the 256 MB of the delay slot. -/
def jumpTarget (pc : Word) (instr_index : BitVec 26) : Word :=
  (pc + 4#32).extractLsb' 28 4 ++ instr_index ++ 0#2

def branchTo (taken : Bool) (target : Word) : Outcome :=
  ⟨none, none, if taken then some target else none⟩

/-- The instruction at `pc`, from the general registers `gpr` and the pair HI/LO. -/
def Instr.exec (pc : Word) (gpr : RegAddr → Word) (hi lo : Word) : Instr → Outcome
  | .reg f rd rs rt => .write rd (f.value (gpr rs) (gpr rt))
  | .shift f rd rt sa => .write rd (f.value (gpr rt) sa.toNat)
  | .shiftv f rd rt rs => .write rd (f.value (gpr rt) ((gpr rs).toNat % 32))
  | .imm f rt rs i => .write rt (f.value (gpr rs) i)
  | .lui rt i => .write rt (i ++ 0#16)
  | .mfhi rd => .write rd hi
  | .mflo rd => .write rd lo
  | .mthi rs => .writeHiLo (gpr rs) lo
  | .mtlo rs => .writeHiLo hi (gpr rs)
  | .mult rs rt =>
    let product := (gpr rs).signExtend 64 * (gpr rt).signExtend 64
    .writeHiLo (product.extractLsb' 32 32) (product.extractLsb' 0 32)
  | .branchEq c rs rt i => branchTo (c.holds (gpr rs) (gpr rt)) (branchTarget pc i)
  | .branchZero c rs i => branchTo (c.holds (gpr rs)) (branchTarget pc i)
  | .j i => .jump (jumpTarget pc i)
  | .jal i => ⟨some (31#5, pc + 8#32), none, some (jumpTarget pc i)⟩
  | .jr rs => .jump (gpr rs)
  | .jalr rd rs => ⟨some (rd, pc + 8#32), none, some (gpr rs)⟩

/-- `$0` is zero, whatever the register array holds. -/
def readGpr (regs : RegAddr → Word) (r : RegAddr) : Word := if r = 0b00000#5 then 0#32 else regs r

end nehcpu.mips32
