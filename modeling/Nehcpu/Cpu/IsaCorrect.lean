-- Each integer instruction of `id` and `ex` does what MIPS32 says, but for the
-- immediate of SLTIU, which the decoder extends by zeros, and for the field of LUI
-- that should be zero, whose register the decoder reads.
import Nehcpu.Cpu.Isa

namespace nehcpu.cpu

open mips32 (Outcome Instr RegFn ShiftFn ImmFn EqCond ZeroCond readGpr)

variable (held : ExHeld) (cp0 : Cp0Fwd) (regs : RegFile) (hi lo w pc : Word)

/-! ## SPECIAL -/

theorem branch_special (a b : Word) (hop : op w = EXE_SPECIAL_INST) (h1 : op3 w ≠ EXE_JR)
    (h2 : op3 w ≠ EXE_JALR) : branch w pc a b = .no := by
  unfold branch
  rw [if_pos hop, if_neg fun h => h1 h.2, if_neg fun h => h2 h.2]

def regAluop : RegFn → AluOp
  | .addu => .ADDU | .subu => .SUBU | .and => .AND | .or => .OR
  | .xor => .XOR | .nor => .NOR | .slt => .SLT | .sltu => .SLTU

def regAlusel : RegFn → AluSel
  | .addu | .subu | .slt | .sltu => .ARITHMETIC
  | .and | .or | .xor | .nor => .LOGIC

theorem decode_reg (f : RegFn) (hop : op w = EXE_SPECIAL_INST) (hsa : op2 w = 0b00000#5)
    (hf : op3 w = f.funct) :
    decode w = (Decode.start w).arm (regAluop f) (regAlusel f) true true true := by
  rw [decode_special w hop hsa (by rw [hf]; cases f <;> decide)
    (by rw [hf]; cases f <;> decide) (by rw [hf]; cases f <;> decide)]
  cases f <;> simp +decide only [Decode.special, hf, RegFn.funct] <;> rfl

/-- What `ex` computes for an operation on two registers. -/
theorem ex_wdata_o_reg (f : RegFn) (x : IdEx) (hx : x.ex_aluop = regAluop f)
    (hs : x.ex_alusel = regAlusel f) :
    ex_wdata_o held x (hi, lo) cp0 = f.value x.ex_reg1 x.ex_reg2 := by
  unfold ex_wdata_o
  rw [hs, hx]
  cases f with
  | slt =>
    simp only [regAlusel, regAluop, arithres, reg1_lt_reg2_slt, boolWord_eq, RegFn.value]
  | sltu =>
    have hlt : reg1_lt_reg2 .SLTU x.ex_reg1 x.ex_reg2 = x.ex_reg1.ult x.ex_reg2 := rfl
    simp only [regAlusel, regAluop, arithres, hlt, boolWord_eq, RegFn.value]
  | subu => exact neg_sum x.ex_reg1 x.ex_reg2
  | _ => rfl

theorem outcome_reg (f : RegFn) (hop : op w = EXE_SPECIAL_INST) (hsa : op2 w = 0b00000#5)
    (hf : op3 w = f.funct) :
    idExOutcome held cp0 regs hi lo w pc =
      (Instr.reg f (rdOf w) (rsOf w) (rtOf w)).exec pc (readGpr regs) hi lo := by
  have hd := decode_reg w f hop hsa hf
  have hb : ∀ a b, branch w pc a b = .no := fun a b =>
    branch_special w pc a b hop (by rw [hf]; cases f <;> decide) (by rw [hf]; cases f <;> decide)
  have hv := ex_wdata_o_reg held cp0 hi lo f (decoded regs w pc)
    (by simp only [decoded, idOut, hd]; rfl) (by simp only [decoded, idOut, hd]; rfl)
  simp only [idExOutcome, ex_reg, hv, hb, Instr.exec, Outcome.write]
  simp only [decoded, idOut, operand1, operand2, hd, ex_hilo]
  cases f <;> simp [Decode.arm, Decode.start, regAluop, HiLoWrite.off, BranchOut.no]

/-- What `ex` computes for a shift. -/
theorem ex_wdata_o_shift (f : ShiftFn) (x : IdEx) (hx : x.ex_aluop = shiftAluop f)
    (hs : x.ex_alusel = .SHIFT) :
    ex_wdata_o held x (hi, lo) cp0 = f.value x.ex_reg2 (x.ex_reg1.toNat % 32) := by
  unfold ex_wdata_o
  rw [hs, hx]
  exact shiftres_eq f x.ex_reg1 x.ex_reg2

/-- The shift amount in the word comes through the immediate. -/
theorem shift_imm_toNat (sa : BitVec 5) :
    (ZeroWord.extractLsb' 5 27 ++ sa : Word).toNat % 32 = sa.toNat := by
  have h : (ZeroWord.extractLsb' 5 27 ++ sa : Word).toNat = sa.toNat :=
    (BitVec.toNat_append (ZeroWord.extractLsb' 5 27) sa).trans (by simp)
  have hlt := sa.isLt
  rw [h]
  omega

theorem outcome_shift (f : ShiftFn) (hop : op w = EXE_SPECIAL_INST) (hrs : rsOf w = 0b00000#5)
    (hf : op3 w = f.funct) :
    idExOutcome held cp0 regs hi lo w pc =
      (Instr.shift f (rdOf w) (rtOf w) (op2 w)).exec pc (readGpr regs) hi lo := by
  have hd := decode_shift f w hop hrs hf
  have hb : ∀ a b, branch w pc a b = .no := fun a b =>
    branch_special w pc a b hop (by rw [hf]; cases f <;> decide) (by rw [hf]; cases f <;> decide)
  have hv := ex_wdata_o_shift held cp0 hi lo f (decoded regs w pc)
    (by simp only [decoded, idOut, hd]; rfl) (by simp only [decoded, idOut, hd]; rfl)
  have h1 : (decoded regs w pc).ex_reg1 = ZeroWord.extractLsb' 5 27 ++ op2 w := by
    simp only [decoded, idOut, operand1, hd]
    exact operand_imm _ _ _
  have h2 : (decoded regs w pc).ex_reg2 = readGpr regs (rtOf w) := by
    simp only [decoded, idOut, operand2, hd]
    exact operand_read _ _ _
  rw [h1, h2, shift_imm_toNat] at hv
  simp only [idExOutcome, ex_reg, hv, hb, Instr.exec, Outcome.write]
  simp only [decoded, idOut, hd, ex_hilo]
  cases f <;> simp [Decode.shiftArm, Decode.arm, shiftAluop, HiLoWrite.off, BranchOut.no]

theorem decode_shiftv (f : ShiftFn) (hop : op w = EXE_SPECIAL_INST) (hsa : op2 w = 0b00000#5)
    (hf : op3 w = f.functv) :
    decode w = (Decode.start w).arm (shiftAluop f) .SHIFT true true true := by
  rw [decode_special w hop hsa (by rw [hf]; cases f <;> decide)
    (by rw [hf]; cases f <;> decide) (by rw [hf]; cases f <;> decide)]
  cases f <;> simp +decide only [Decode.special, hf, ShiftFn.functv] <;> rfl

theorem outcome_shiftv (f : ShiftFn) (hop : op w = EXE_SPECIAL_INST) (hsa : op2 w = 0b00000#5)
    (hf : op3 w = f.functv) :
    idExOutcome held cp0 regs hi lo w pc =
      (Instr.shiftv f (rdOf w) (rtOf w) (rsOf w)).exec pc (readGpr regs) hi lo := by
  have hd := decode_shiftv w f hop hsa hf
  have hb : ∀ a b, branch w pc a b = .no := fun a b =>
    branch_special w pc a b hop (by rw [hf]; cases f <;> decide) (by rw [hf]; cases f <;> decide)
  have hv := ex_wdata_o_shift held cp0 hi lo f (decoded regs w pc)
    (by simp only [decoded, idOut, hd]; rfl) (by simp only [decoded, idOut, hd]; rfl)
  simp only [idExOutcome, ex_reg, hv, hb, Instr.exec, Outcome.write]
  simp only [decoded, idOut, operand1, operand2, hd, ex_hilo]
  cases f <;> simp [Decode.arm, Decode.start, shiftAluop, HiLoWrite.off, BranchOut.no]

/-- The moves from and to HI and LO, and MULT. -/
theorem outcome_mfhi (hop : op w = EXE_SPECIAL_INST) (hsa : op2 w = 0b00000#5)
    (hf : op3 w = EXE_MFHI) :
    idExOutcome held cp0 regs hi lo w pc =
      (Instr.mfhi (rdOf w)).exec pc (readGpr regs) hi lo := by
  have hd : decode w = (Decode.start w).arm .MFHI .MOVE true false false := by
    rw [decode_special w hop hsa (by rw [hf]; decide) (by rw [hf]; decide) (by rw [hf]; decide)]
    simp +decide only [Decode.special, hf]
    rfl
  have hb : ∀ a b, branch w pc a b = .no := fun a b =>
    branch_special w pc a b hop (by rw [hf]; decide) (by rw [hf]; decide)
  simp only [idExOutcome, hb, decoded, idOut, hd, ex_reg, ex_hilo, ex_wdata_o]
  rfl

theorem outcome_mflo (hop : op w = EXE_SPECIAL_INST) (hsa : op2 w = 0b00000#5)
    (hf : op3 w = EXE_MFLO) :
    idExOutcome held cp0 regs hi lo w pc =
      (Instr.mflo (rdOf w)).exec pc (readGpr regs) hi lo := by
  have hd : decode w = (Decode.start w).arm .MFLO .MOVE true false false := by
    rw [decode_special w hop hsa (by rw [hf]; decide) (by rw [hf]; decide) (by rw [hf]; decide)]
    simp +decide only [Decode.special, hf]
    rfl
  have hb : ∀ a b, branch w pc a b = .no := fun a b =>
    branch_special w pc a b hop (by rw [hf]; decide) (by rw [hf]; decide)
  simp only [idExOutcome, hb, decoded, idOut, hd, ex_reg, ex_hilo, ex_wdata_o]
  rfl

theorem outcome_mthi (hop : op w = EXE_SPECIAL_INST) (hsa : op2 w = 0b00000#5)
    (hf : op3 w = EXE_MTHI) :
    idExOutcome held cp0 regs hi lo w pc =
      (Instr.mthi (rsOf w)).exec pc (readGpr regs) hi lo := by
  have hd : decode w = (Decode.start w).arm .MTHI .MOVE false true false := by
    rw [decode_special w hop hsa (by rw [hf]; decide) (by rw [hf]; decide) (by rw [hf]; decide)]
    simp +decide only [Decode.special, hf]
    rfl
  have hb : ∀ a b, branch w pc a b = .no := fun a b =>
    branch_special w pc a b hop (by rw [hf]; decide) (by rw [hf]; decide)
  have h1 : operand1 regs w = readGpr regs (rsOf w) := by
    simp only [operand1, hd]
    exact operand_read _ _ _
  simp only [idExOutcome, hb, decoded, idOut, h1, hd, ex_reg, ex_hilo, ex_wdata_o]
  rfl

theorem outcome_mtlo (hop : op w = EXE_SPECIAL_INST) (hsa : op2 w = 0b00000#5)
    (hf : op3 w = EXE_MTLO) :
    idExOutcome held cp0 regs hi lo w pc =
      (Instr.mtlo (rsOf w)).exec pc (readGpr regs) hi lo := by
  have hd : decode w = (Decode.start w).arm .MTLO .MOVE false true false := by
    rw [decode_special w hop hsa (by rw [hf]; decide) (by rw [hf]; decide) (by rw [hf]; decide)]
    simp +decide only [Decode.special, hf]
    rfl
  have hb : ∀ a b, branch w pc a b = .no := fun a b =>
    branch_special w pc a b hop (by rw [hf]; decide) (by rw [hf]; decide)
  have h1 : operand1 regs w = readGpr regs (rsOf w) := by
    simp only [operand1, hd]
    exact operand_read _ _ _
  simp only [idExOutcome, hb, decoded, idOut, h1, hd, ex_reg, ex_hilo, ex_wdata_o]
  rfl

theorem outcome_mult (hop : op w = EXE_SPECIAL_INST) (hsa : op2 w = 0b00000#5)
    (hf : op3 w = EXE_MULT) :
    idExOutcome held cp0 regs hi lo w pc =
      (Instr.mult (rsOf w) (rtOf w)).exec pc (readGpr regs) hi lo := by
  have hd : decode w = (Decode.start w).arm .MULT .NOP false true true := by
    rw [decode_special w hop hsa (by rw [hf]; decide) (by rw [hf]; decide) (by rw [hf]; decide)]
    simp +decide only [Decode.special, hf]
    rfl
  have hb : ∀ a b, branch w pc a b = .no := fun a b =>
    branch_special w pc a b hop (by rw [hf]; decide) (by rw [hf]; decide)
  have h1 : operand1 regs w = readGpr regs (rsOf w) := by
    simp only [operand1, hd]
    exact operand_read _ _ _
  have h2 : operand2 regs w = readGpr regs (rtOf w) := by
    simp only [operand2, hd]
    exact operand_read _ _ _
  simp only [idExOutcome, hb, decoded, idOut, h1, h2, hd, ex_reg, ex_hilo, ex_wdata_o, Decode.arm,
    mulres_mult]
  rfl

theorem outcome_jr (hop : op w = EXE_SPECIAL_INST) (hsa : op2 w = 0b00000#5)
    (hf : op3 w = EXE_JR) :
    idExOutcome held cp0 regs hi lo w pc =
      (Instr.jr (rsOf w)).exec pc (readGpr regs) hi lo := by
  have hd : decode w = (Decode.start w).arm .JR .JUMP_BRANCH false true false := by
    rw [decode_special w hop hsa (by rw [hf]; decide) (by rw [hf]; decide) (by rw [hf]; decide)]
    simp +decide only [Decode.special, hf]
    rfl
  have hb : ∀ a b, branch w pc a b = .to a ZeroWord := by
    intro a b
    unfold branch
    rw [if_pos hop, if_pos ⟨hsa, hf⟩]
  have h1 : operand1 regs w = readGpr regs (rsOf w) := by
    simp only [operand1, hd]
    exact operand_read _ _ _
  simp only [idExOutcome, hb, decoded, idOut, h1, hd, ex_reg, ex_hilo, ex_wdata_o]
  rfl

theorem outcome_jalr (hop : op w = EXE_SPECIAL_INST) (hsa : op2 w = 0b00000#5)
    (hf : op3 w = EXE_JALR) :
    idExOutcome held cp0 regs hi lo w pc =
      (Instr.jalr (rdOf w) (rsOf w)).exec pc (readGpr regs) hi lo := by
  have hd : decode w = (Decode.start w).arm .JALR .JUMP_BRANCH true true false := by
    rw [decode_special w hop hsa (by rw [hf]; decide) (by rw [hf]; decide) (by rw [hf]; decide)]
    simp +decide only [Decode.special, hf]
    rfl
  have hb : ∀ a b, branch w pc a b = .to a (pc_plus_8 pc) := by
    intro a b
    unfold branch
    rw [if_pos hop, if_neg fun h => absurd (hf.symm.trans h.2) (by decide), if_pos ⟨hsa, hf⟩]
  have h1 : operand1 regs w = readGpr regs (rsOf w) := by
    simp only [operand1, hd]
    exact operand_read _ _ _
  simp only [idExOutcome, hb, decoded, idOut, h1, hd, ex_reg, ex_hilo, ex_wdata_o]
  rfl

/-! ## The other opcodes -/

def immAluop : ImmFn → AluOp
  | .addiu => .ADDIU | .slti => .SLT | .sltiu => .SLTU
  | .andi => .AND | .ori => .OR | .xori => .XOR

def immAlusel : ImmFn → AluSel
  | .addiu | .slti | .sltiu => .ARITHMETIC
  | .andi | .ori | .xori => .LOGIC

/-- The extension of the decoder: by the sign for ADDIU and SLTI, by zeros for the others. -/
def immExtend (i : BitVec 16) : ImmFn → Word
  | .addiu | .slti => i.signExtend 32
  | .sltiu | .andi | .ori | .xori => i.zeroExtend 32

theorem decode_imm (f : ImmFn) (hop : op w = f.opcode) :
    decode w =
      (Decode.start w).immArm w (immAluop f) (immAlusel f) (immExtend (immOf w) f) := by
  rw [decode_of_op w (by rw [hop]; cases f <;> decide) (by rw [hop]; cases f <;> decide)]
  cases f <;> simp +decide only [Decode.caseOp, hop, ImmFn.opcode] <;> rfl

/-- What the two stages compute for an operation on a register and an immediate. -/
def immResult (a : Word) (i : BitVec 16) : ImmFn → Word
  | .sltiu => mips32.boolWord (a.ult (i.zeroExtend 32))
  | f => f.value a i

theorem ex_wdata_o_imm (f : ImmFn) (x : IdEx) (i : BitVec 16) (hx : x.ex_aluop = immAluop f)
    (hs : x.ex_alusel = immAlusel f) (h2 : x.ex_reg2 = immExtend i f) :
    ex_wdata_o held x (hi, lo) cp0 = immResult x.ex_reg1 i f := by
  unfold ex_wdata_o
  rw [hs, hx, h2]
  cases f with
  | slti =>
    simp only [immAlusel, immAluop, arithres, reg1_lt_reg2_slt, boolWord_eq, immResult,
      ImmFn.value, immExtend]
  | sltiu =>
    have hlt : reg1_lt_reg2 .SLTU x.ex_reg1 (i.zeroExtend 32) =
        x.ex_reg1.ult (i.zeroExtend 32) := rfl
    simp only [immAlusel, immAluop, arithres, immExtend, hlt, boolWord_eq, immResult]
  | _ => rfl

theorem branch_of_imm (f : ImmFn) (a b : Word) (hop : op w = f.opcode) :
    branch w pc a b = .no := by
  cases f <;> simp +decide only [branch, hop, ImmFn.opcode] <;> rfl

theorem outcome_imm (f : ImmFn) (hop : op w = f.opcode) :
    idExOutcome held cp0 regs hi lo w pc =
      Outcome.write (rtOf w) (immResult (readGpr regs (rsOf w)) (immOf w) f) := by
  have hd := decode_imm w f hop
  have hb : ∀ a b, branch w pc a b = .no := fun a b => branch_of_imm w pc f a b hop
  have h1 : (decoded regs w pc).ex_reg1 = readGpr regs (rsOf w) := by
    simp only [decoded, idOut, operand1, hd]
    exact operand_read _ _ _
  have hv := ex_wdata_o_imm held cp0 hi lo f (decoded regs w pc) (immOf w)
    (by simp only [decoded, idOut, hd]; rfl) (by simp only [decoded, idOut, hd]; rfl)
    (by simp only [decoded, idOut, operand2, hd]; exact operand_imm _ _ _)
  rw [h1] at hv
  simp only [idExOutcome, ex_reg, hv, hb, Outcome.write]
  simp only [decoded, idOut, hd, ex_hilo]
  cases f <;> simp [Decode.immArm, Decode.arm, immAluop, HiLoWrite.off, BranchOut.no]

/-- LUI is an OR with the register that its `rs` field names. -/
theorem outcome_lui (hop : op w = EXE_LUI) :
    idExOutcome held cp0 regs hi lo w pc =
      Outcome.write (rtOf w) (readGpr regs (rsOf w) ||| (immOf w ++ 0#16)) := by
  have hd : decode w = (Decode.start w).immArm w .OR .LOGIC (immOf w ++ 0#16) := by
    rw [decode_of_op w (by rw [hop]; decide) (by rw [hop]; decide)]
    simp +decide only [Decode.caseOp, hop]
    rfl
  have hb : ∀ a b, branch w pc a b = .no := by
    intro a b
    simp +decide only [branch, hop]
    rfl
  have h1 : operand1 regs w = readGpr regs (rsOf w) := by
    simp only [operand1, hd]
    exact operand_read _ _ _
  have h2 : operand2 regs w = immOf w ++ 0#16 := by
    simp only [operand2, hd]
    exact operand_imm _ _ _
  simp only [idExOutcome, hb, decoded, idOut, h1, h2, hd, ex_reg, ex_hilo, ex_wdata_o]
  rfl

/-! ## Branches and jumps -/

theorem target_eq : pc_plus_4 pc + imm_sll2_signed w = mips32.branchTarget pc (immOf w) := by
  rw [imm_sll2_signed_eq]
  rfl

/-- A conditional branch, once its arm of the decoder and its condition are known. -/
theorem outcome_branchIf (d : Decode) (cond : Bool) (hd : decode w = d)
    (hw : d.wreg_o = false)
    (hx : d.aluop_o ≠ .MTHI ∧ d.aluop_o ≠ .MTLO ∧ d.aluop_o ≠ .MULT)
    (hb : branch w pc (operand1 regs w) (operand2 regs w) = branchIf cond w pc) :
    idExOutcome held cp0 regs hi lo w pc =
      mips32.branchTo cond (mips32.branchTarget pc (immOf w)) := by
  have hh : (ex_hilo held (decoded regs w pc) (hi, lo)).whilo = false := by
    have hop : (decoded regs w pc).ex_aluop = d.aluop_o := by
      simp only [decoded, idOut, hd]
    unfold ex_hilo
    rw [hop]
    cases ha : d.aluop_o <;> simp [ha] at hx <;> rfl
  have hr : (ex_reg held (decoded regs w pc) (hi, lo) cp0).wreg = false := by
    simp only [ex_reg, decoded, idOut, hd, hw]
  simp only [idExOutcome, hh, hr, hb, branchIf, mips32.branchTo]
  cases cond
  · rfl
  · simp only [↓reduceIte, BranchOut.to, target_eq]
    rfl

def eqAluop : EqCond → AluOp
  | .beq => .BEQ
  | .bne => .BNE

theorem outcome_branchEq (c : EqCond) (hop : op w = c.opcode) :
    idExOutcome held cp0 regs hi lo w pc =
      (Instr.branchEq c (rsOf w) (rtOf w) (immOf w)).exec pc (readGpr regs) hi lo := by
  have hd : decode w = (Decode.start w).arm (eqAluop c) .JUMP_BRANCH false true true := by
    rw [decode_of_op w (by rw [hop]; cases c <;> decide) (by rw [hop]; cases c <;> decide)]
    cases c <;> simp +decide only [Decode.caseOp, hop, EqCond.opcode] <;> rfl
  have h1 : operand1 regs w = readGpr regs (rsOf w) := by
    simp only [operand1, hd]
    exact operand_read _ _ _
  have h2 : operand2 regs w = readGpr regs (rtOf w) := by
    simp only [operand2, hd]
    exact operand_read _ _ _
  have hx : eqAluop c ≠ .MTHI ∧ eqAluop c ≠ .MTLO ∧ eqAluop c ≠ .MULT := by
    cases c <;> decide
  refine outcome_branchIf held cp0 regs hi lo w pc _ _ hd rfl hx ?_
  · rw [h1, h2]
    cases c <;> simp +decide only [branch, hop, EqCond.opcode] <;> rfl

/-- The four comparisons with zero, from the arm of the decoder and of the branch. -/
theorem outcome_branchZero (c : ZeroCond) (aluop : AluOp)
    (hd : decode w = (Decode.start w).arm aluop .JUMP_BRANCH false true false)
    (hx : aluop ≠ .MTHI ∧ aluop ≠ .MTLO ∧ aluop ≠ .MULT)
    (hb : ∀ a b, branch w pc a b = branchIf (c.holds a) w pc) :
    idExOutcome held cp0 regs hi lo w pc =
      (Instr.branchZero c (rsOf w) (immOf w)).exec pc (readGpr regs) hi lo := by
  have h1 : operand1 regs w = readGpr regs (rsOf w) := by
    simp only [operand1, hd]
    exact operand_read _ _ _
  refine outcome_branchIf held cp0 regs hi lo w pc _ _ hd rfl hx ?_
  rw [hb, h1]

theorem outcome_blez (hop : op w = EXE_BLEZ) :
    idExOutcome held cp0 regs hi lo w pc =
      (Instr.branchZero .blez (rsOf w) (immOf w)).exec pc (readGpr regs) hi lo := by
  refine outcome_branchZero held cp0 regs hi lo w pc .blez .BLEZ ?_ (by decide) fun a b => ?_
  · rw [decode_of_op w (by rw [hop]; decide) (by rw [hop]; decide)]
    simp +decide only [Decode.caseOp, hop]
    rfl
  · rw [← isBlez]
    simp +decide only [branch, hop]
    rfl

theorem outcome_bgtz (hop : op w = EXE_BGTZ) :
    idExOutcome held cp0 regs hi lo w pc =
      (Instr.branchZero .bgtz (rsOf w) (immOf w)).exec pc (readGpr regs) hi lo := by
  refine outcome_branchZero held cp0 regs hi lo w pc .bgtz .BGTZ ?_ (by decide) fun a b => ?_
  · rw [decode_of_op w (by rw [hop]; decide) (by rw [hop]; decide)]
    simp +decide only [Decode.caseOp, hop]
    rfl
  · rw [← isBgtz]
    simp +decide only [branch, hop]
    rfl

theorem outcome_bltz (hop : op w = EXE_REGIMM_INST) (hrt : op4 w = EXE_BLTZ) :
    idExOutcome held cp0 regs hi lo w pc =
      (Instr.branchZero .bltz (rsOf w) (immOf w)).exec pc (readGpr regs) hi lo := by
  refine outcome_branchZero held cp0 regs hi lo w pc .bltz .BLTZ ?_ (by decide) fun a b => ?_
  · rw [decode_of_op w (by rw [hop]; decide) (by rw [hop]; decide)]
    simp +decide only [Decode.caseOp, Decode.regimm, hop, hrt]
    rfl
  · rw [← isBltz]
    simp +decide only [branch, hop, hrt]
    rfl

theorem outcome_bgez (hop : op w = EXE_REGIMM_INST) (hrt : op4 w = EXE_BGEZ) :
    idExOutcome held cp0 regs hi lo w pc =
      (Instr.branchZero .bgez (rsOf w) (immOf w)).exec pc (readGpr regs) hi lo := by
  refine outcome_branchZero held cp0 regs hi lo w pc .bgez .BGEZ ?_ (by decide) fun a b => ?_
  · rw [decode_of_op w (by rw [hop]; decide) (by rw [hop]; decide)]
    simp +decide only [Decode.caseOp, Decode.regimm, hop, hrt]
    rfl
  · rw [← isBgez]
    simp +decide only [branch, hop, hrt]
    rfl

theorem outcome_j (hop : op w = EXE_J) :
    idExOutcome held cp0 regs hi lo w pc =
      (Instr.j (w.extractLsb' 0 26)).exec pc (readGpr regs) hi lo := by
  have hd : decode w = (Decode.start w).arm .J .JUMP_BRANCH false false false := by
    rw [decode_of_op w (by rw [hop]; decide) (by rw [hop]; decide)]
    simp +decide only [Decode.caseOp, hop]
    rfl
  have hb : ∀ a b, branch w pc a b = .to (jumpTarget w pc) ZeroWord := by
    intro a b
    simp +decide only [branch, hop]
    rfl
  simp only [idExOutcome, hb, decoded, idOut, hd, ex_reg, ex_hilo, ex_wdata_o]
  rfl

theorem outcome_jal (hop : op w = EXE_JAL) :
    idExOutcome held cp0 regs hi lo w pc =
      (Instr.jal (w.extractLsb' 0 26)).exec pc (readGpr regs) hi lo := by
  have hd : decode w =
      { (Decode.start w).arm .JAL .JUMP_BRANCH true false false with wd_o := 0b11111#5 } := by
    rw [decode_of_op w (by rw [hop]; decide) (by rw [hop]; decide)]
    simp +decide only [Decode.caseOp, hop]
    rfl
  have hb : ∀ a b, branch w pc a b = .to (jumpTarget w pc) (pc_plus_8 pc) := by
    intro a b
    simp +decide only [branch, hop]
    rfl
  simp only [idExOutcome, hb, decoded, idOut, hd, ex_reg, ex_hilo, ex_wdata_o]
  rfl

/-! ## Words -/

/-- The operations that the decoder gives to integer instructions, branches and jumps. -/
def integerOps : List AluOp :=
  [.AND, .OR, .XOR, .NOR, .SLL, .SRL, .SRA, .MFHI, .MTHI, .MFLO, .MTLO, .SLT, .SLTU, .SUBU,
    .ADDU, .ADDIU, .MULT, .J, .JAL, .JALR, .JR, .BEQ, .BGEZ, .BGTZ, .BLEZ, .BLTZ, .BNE]

/-- `id` decodes the word as one of these. -/
def Supported : Prop := (decode w).aluop_o ∈ integerOps

instance : Decidable (Supported w) := inferInstanceAs (Decidable (_ ∈ _))

theorem ite_some_eq_none {α : Type} {c : Prop} [Decidable c] {a : α} {b : Option α} :
    (if c then some a else b) = none ↔ ¬ c ∧ b = none := by
  by_cases h : c
  · simp [h]
  · simp [h]

theorem ite_some_eq_some {α : Type} {c : Prop} [Decidable c] {a m : α} {b : Option α} :
    (if c then some a else b) = some m ↔ (c ∧ m = a) ∨ (¬ c ∧ b = some m) := by
  by_cases h : c
  · simp [h, eq_comm]
  · simp [h]

theorem ite_ite_eq_some {α : Type} {c d : Prop} [Decidable c] [Decidable d] {a m : α}
    {b : Option α} :
    (if c then if d then some a else none else b) = some m ↔
      (c ∧ d ∧ m = a) ∨ (¬ c ∧ b = some m) := by
  by_cases h : c
  · rw [if_pos h, ite_some_eq_some]
    simp [h]
  · simp [h]

theorem ite_none_eq_some {α : Type} {c : Prop} [Decidable c] {m : α} {b : Option α} :
    (if c then none else b) = some m ↔ ¬ c ∧ b = some m := by
  by_cases h : c
  · simp [h]
  · simp [h]

/-- A word with the opcode SPECIAL that is not in the function table is no integer operation
for the decoder: SYSCALL, or nothing. -/
theorem not_supported_special (hop : op w = EXE_SPECIAL_INST)
    (h : mips32.special (rsOf w) (rtOf w) (rdOf w) (op2 w) (op3 w) = none) : ¬ Supported w := by
  have hcase : (Decode.start w).caseOp w =
      if op2 w = 0b00000#5 then (Decode.start w).special w else Decode.start w := by
    unfold Decode.caseOp
    rw [if_pos hop]
  unfold Supported
  rw [decode_eq_shifts w (by rw [hop]; decide), hcase]
  by_cases hsh : op3 w = EXE_SLL ∨ op3 w = EXE_SRL ∨ op3 w = EXE_SRA
  · have hrs : rsOf w ≠ 0b00000#5 := by
      intro hrs
      rcases hsh with hf | hf | hf <;>
        simp +decide [mips32.special, hf, ShiftFn.funct, hrs] at h
    have hs : (Decode.start w).special w = Decode.start w := by
      rcases hsh with hf | hf | hf <;> simp +decide only [Decode.special, hf] <;> rfl
    have hh : ¬ w.extractLsb' 21 11 = 0b00000000000#11 := fun he =>
      hrs ((high_eq_iff w 0b000000#6 0b00000#5).1 he).2
    rw [hs, ite_self]
    unfold Decode.shifts
    rw [if_neg hh]
    simp [Decode.start, integerOps]
  · rw [not_or, not_or] at hsh
    have hd : ∀ d : Decode, d.shifts w = d := by
      intro d
      unfold Decode.shifts
      rw [if_neg hsh.1, if_neg hsh.2.1, if_neg hsh.2.2, ite_self]
    rw [hd]
    split
    · rename_i hsa
      have h1 : ¬ op3 w = ShiftFn.sll.funct := hsh.1
      have h2 : ¬ op3 w = ShiftFn.srl.funct := hsh.2.1
      have h3 : ¬ op3 w = ShiftFn.sra.funct := hsh.2.2
      unfold mips32.special at h
      rw [if_neg h1, if_neg h2, if_neg h3, if_neg (not_not.2 hsa)] at h
      simp only [ite_some_eq_none] at h
      simp only [RegFn.funct, ShiftFn.functv] at h
      obtain ⟨h1, h2, h3, h4, h5, h6, h7, h8, h9, h10, h11, h12, h13, h14, h15, h16, h17, h18, -⟩ :=
        h
      simp only [Decode.special, h1, h2, h3, h4, h5, h6, h7, h8, h9, h10, h11, h12, h13, h14, h15,
        h16, h17, h18, ↓reduceIte]
      split <;> simp [Decode.arm, Decode.start, integerOps]
    · simp [Decode.start, integerOps]

/-- The same for the other opcodes: a load, a store, CACHE, an operation on CP0, or nothing. -/
theorem not_supported_opcode (hop : op w ≠ EXE_SPECIAL_INST)
    (h : mips32.byOpcode (op w) (rsOf w) (rtOf w) (immOf w) (w.extractLsb' 0 26) = none) :
    ¬ Supported w := by
  unfold Supported
  by_cases hc : op w = 0b010000#6
  · have hs : ((Decode.start w).caseOp w).shifts w = Decode.start w := by
      rw [shifts_of_op _ w hop]
      simp +decide only [Decode.caseOp, hc]
      rfl
    unfold decode
    rw [hs]
    unfold Decode.mfc0 Decode.mtc0 Decode.eret Decode.tlbwi
    split_ifs <;> simp [Decode.arm, Decode.start, integerOps]
  · rw [decode_of_op w hop hc]
    unfold mips32.byOpcode at h
    by_cases hr : op w = EXE_REGIMM_INST
    · rw [if_pos hr] at h
      simp only [ite_some_eq_none] at h
      have h1 : ¬ op4 w = EXE_BLTZ := h.1
      have h2 : ¬ op4 w = EXE_BGEZ := h.2.1
      have hd : (Decode.start w).caseOp w = Decode.start w := by
        simp +decide only [Decode.caseOp, hr]
        exact (if_neg h2).trans (if_neg h1)
      rw [hd]
      simp [Decode.start, integerOps]
    · rw [if_neg hr] at h
      simp only [ite_some_eq_none] at h
      simp only [ImmFn.opcode, EqCond.opcode] at h
      obtain ⟨h1, h2, h3, h4, h5, h6, h7, h8, h9, h10, h11, h12, h13, -⟩ := h
      simp only [Decode.caseOp, h1, h2, h3, h4, h5, h6, h7, h8, h9, h10, h11, h12, h13, hop, hr,
        ↓reduceIte]
      split_ifs <;> simp [Decode.arm, Decode.loadArm, Decode.start, integerOps]

/-! ## The tables -/

theorem outcome_special {m : Instr} (hop : op w = EXE_SPECIAL_INST)
    (h : mips32.special (rsOf w) (rtOf w) (rdOf w) (op2 w) (op3 w) = some m) :
    idExOutcome held cp0 regs hi lo w pc = m.exec pc (readGpr regs) hi lo := by
  unfold mips32.special at h
  obtain ⟨hf, hrs, rfl⟩ | ⟨-, h⟩ := ite_ite_eq_some.1 h
  · exact outcome_shift held cp0 regs hi lo w pc .sll hop hrs hf
  obtain ⟨hf, hrs, rfl⟩ | ⟨-, h⟩ := ite_ite_eq_some.1 h
  · exact outcome_shift held cp0 regs hi lo w pc .srl hop hrs hf
  obtain ⟨hf, hrs, rfl⟩ | ⟨-, h⟩ := ite_ite_eq_some.1 h
  · exact outcome_shift held cp0 regs hi lo w pc .sra hop hrs hf
  obtain ⟨hsa, h⟩ := ite_none_eq_some.1 h
  rw [not_not] at hsa
  obtain ⟨hf, rfl⟩ | ⟨-, h⟩ := ite_some_eq_some.1 h
  · exact outcome_shiftv held cp0 regs hi lo w pc .sll hop hsa hf
  obtain ⟨hf, rfl⟩ | ⟨-, h⟩ := ite_some_eq_some.1 h
  · exact outcome_shiftv held cp0 regs hi lo w pc .srl hop hsa hf
  obtain ⟨hf, rfl⟩ | ⟨-, h⟩ := ite_some_eq_some.1 h
  · exact outcome_shiftv held cp0 regs hi lo w pc .sra hop hsa hf
  obtain ⟨hf, rfl⟩ | ⟨-, h⟩ := ite_some_eq_some.1 h
  · exact outcome_jr held cp0 regs hi lo w pc hop hsa hf
  obtain ⟨hf, rfl⟩ | ⟨-, h⟩ := ite_some_eq_some.1 h
  · exact outcome_jalr held cp0 regs hi lo w pc hop hsa hf
  obtain ⟨hf, rfl⟩ | ⟨-, h⟩ := ite_some_eq_some.1 h
  · exact outcome_mfhi held cp0 regs hi lo w pc hop hsa hf
  obtain ⟨hf, rfl⟩ | ⟨-, h⟩ := ite_some_eq_some.1 h
  · exact outcome_mthi held cp0 regs hi lo w pc hop hsa hf
  obtain ⟨hf, rfl⟩ | ⟨-, h⟩ := ite_some_eq_some.1 h
  · exact outcome_mflo held cp0 regs hi lo w pc hop hsa hf
  obtain ⟨hf, rfl⟩ | ⟨-, h⟩ := ite_some_eq_some.1 h
  · exact outcome_mtlo held cp0 regs hi lo w pc hop hsa hf
  obtain ⟨hf, rfl⟩ | ⟨-, h⟩ := ite_some_eq_some.1 h
  · exact outcome_mult held cp0 regs hi lo w pc hop hsa hf
  obtain ⟨hf, rfl⟩ | ⟨-, h⟩ := ite_some_eq_some.1 h
  · exact outcome_reg held cp0 regs hi lo w pc .addu hop hsa hf
  obtain ⟨hf, rfl⟩ | ⟨-, h⟩ := ite_some_eq_some.1 h
  · exact outcome_reg held cp0 regs hi lo w pc .subu hop hsa hf
  obtain ⟨hf, rfl⟩ | ⟨-, h⟩ := ite_some_eq_some.1 h
  · exact outcome_reg held cp0 regs hi lo w pc .and hop hsa hf
  obtain ⟨hf, rfl⟩ | ⟨-, h⟩ := ite_some_eq_some.1 h
  · exact outcome_reg held cp0 regs hi lo w pc .or hop hsa hf
  obtain ⟨hf, rfl⟩ | ⟨-, h⟩ := ite_some_eq_some.1 h
  · exact outcome_reg held cp0 regs hi lo w pc .xor hop hsa hf
  obtain ⟨hf, rfl⟩ | ⟨-, h⟩ := ite_some_eq_some.1 h
  · exact outcome_reg held cp0 regs hi lo w pc .nor hop hsa hf
  obtain ⟨hf, rfl⟩ | ⟨-, h⟩ := ite_some_eq_some.1 h
  · exact outcome_reg held cp0 regs hi lo w pc .slt hop hsa hf
  obtain ⟨hf, rfl⟩ | ⟨-, h⟩ := ite_some_eq_some.1 h
  · exact outcome_reg held cp0 regs hi lo w pc .sltu hop hsa hf
  cases h

/-- All but SLTIU and LUI, which are left to the main result. -/
theorem outcome_opcode {m : Instr}
    (h : mips32.byOpcode (op w) (rsOf w) (rtOf w) (immOf w) (w.extractLsb' 0 26) = some m) :
    (idExOutcome held cp0 regs hi lo w pc = m.exec pc (readGpr regs) hi lo) ∨
      (op w = EXE_SLTIU ∧ m = .imm .sltiu (rtOf w) (rsOf w) (immOf w)) ∨
      (op w = EXE_LUI ∧ m = .lui (rtOf w) (immOf w)) := by
  unfold mips32.byOpcode at h
  by_cases hr : op w = EXE_REGIMM_INST
  · rw [if_pos hr] at h
    obtain ⟨hrt, rfl⟩ | ⟨-, h⟩ := ite_some_eq_some.1 h
    · exact Or.inl (outcome_bltz held cp0 regs hi lo w pc hr hrt)
    obtain ⟨hrt, rfl⟩ | ⟨-, h⟩ := ite_some_eq_some.1 h
    · exact Or.inl (outcome_bgez held cp0 regs hi lo w pc hr hrt)
    cases h
  rw [if_neg hr] at h
  obtain ⟨hf, rfl⟩ | ⟨-, h⟩ := ite_some_eq_some.1 h
  · exact Or.inl (outcome_j held cp0 regs hi lo w pc hf)
  obtain ⟨hf, rfl⟩ | ⟨-, h⟩ := ite_some_eq_some.1 h
  · exact Or.inl (outcome_jal held cp0 regs hi lo w pc hf)
  obtain ⟨hf, rfl⟩ | ⟨-, h⟩ := ite_some_eq_some.1 h
  · exact Or.inl (outcome_branchEq held cp0 regs hi lo w pc .beq hf)
  obtain ⟨hf, rfl⟩ | ⟨-, h⟩ := ite_some_eq_some.1 h
  · exact Or.inl (outcome_branchEq held cp0 regs hi lo w pc .bne hf)
  obtain ⟨hf, rfl⟩ | ⟨-, h⟩ := ite_some_eq_some.1 h
  · exact Or.inl (outcome_blez held cp0 regs hi lo w pc hf)
  obtain ⟨hf, rfl⟩ | ⟨-, h⟩ := ite_some_eq_some.1 h
  · exact Or.inl (outcome_bgtz held cp0 regs hi lo w pc hf)
  obtain ⟨hf, rfl⟩ | ⟨-, h⟩ := ite_some_eq_some.1 h
  · exact Or.inl (outcome_imm held cp0 regs hi lo w pc .addiu hf)
  obtain ⟨hf, rfl⟩ | ⟨-, h⟩ := ite_some_eq_some.1 h
  · exact Or.inl (outcome_imm held cp0 regs hi lo w pc .slti hf)
  obtain ⟨hf, rfl⟩ | ⟨-, h⟩ := ite_some_eq_some.1 h
  · exact Or.inr (Or.inl ⟨hf, rfl⟩)
  obtain ⟨hf, rfl⟩ | ⟨-, h⟩ := ite_some_eq_some.1 h
  · exact Or.inl (outcome_imm held cp0 regs hi lo w pc .andi hf)
  obtain ⟨hf, rfl⟩ | ⟨-, h⟩ := ite_some_eq_some.1 h
  · exact Or.inl (outcome_imm held cp0 regs hi lo w pc .ori hf)
  obtain ⟨hf, rfl⟩ | ⟨-, h⟩ := ite_some_eq_some.1 h
  · exact Or.inl (outcome_imm held cp0 regs hi lo w pc .xori hf)
  obtain ⟨hf, rfl⟩ | ⟨-, h⟩ := ite_some_eq_some.1 h
  · exact Or.inr (Or.inr ⟨hf, rfl⟩)
  cases h

/-! ## The main result -/

/-- No value of `rs` lies between the two extensions of the immediate of an SLTIU, and the
register that the `rs` field of a LUI names adds no bit to the result. The `rs` field of LUI
is zero in MIPS32, and `$0` adds none. -/
def ImmFits : Prop :=
  (op w = EXE_SLTIU →
    ¬ (((immOf w).zeroExtend 32).toNat ≤ (readGpr regs (rsOf w)).toNat ∧
      (readGpr regs (rsOf w)).toNat < ((immOf w).signExtend 32).toNat)) ∧
  (op w = EXE_LUI → readGpr regs (rsOf w) ||| (immOf w ++ 0#16) = immOf w ++ 0#16)

theorem boolWord_inj (b c : Bool) : mips32.boolWord b = mips32.boolWord c ↔ b = c := by
  cases b <;> cases c <;> decide

theorem write_inj (r : RegAddr) (a b : Word) :
    Outcome.write r a = Outcome.write r b ↔ a = b := by
  constructor
  · intro h
    simpa [Outcome.write] using h
  · intro h
    rw [h]

/-- Extending by zeros gives the smaller number. -/
theorem zeroExtend_le_signExtend (i : BitVec 16) :
    (i.zeroExtend 32).toNat ≤ (i.signExtend 32).toNat := by
  have hi := i.isLt
  rw [BitVec.toNat_signExtend]
  simp only [BitVec.toNat_setWidth]
  omega

/-- The two comparisons differ exactly for the values in between. -/
theorem ult_extend_iff (a : Word) (i : BitVec 16) :
    a.ult (i.zeroExtend 32) = a.ult (i.signExtend 32) ↔
      ¬ ((i.zeroExtend 32).toNat ≤ a.toNat ∧ a.toNat < (i.signExtend 32).toNat) := by
  have hle := zeroExtend_le_signExtend i
  rw [BitVec.ult, BitVec.ult, Bool.eq_iff_iff, decide_eq_true_eq, decide_eq_true_eq]
  omega

theorem sltiu_iff {m : Instr} (hop : op w = EXE_SLTIU)
    (h : mips32.byOpcode (op w) (rsOf w) (rtOf w) (immOf w) (w.extractLsb' 0 26) = some m) :
    idExOutcome held cp0 regs hi lo w pc = m.exec pc (readGpr regs) hi lo ↔ ImmFits regs w := by
  rw [hop] at h
  have hm : some (Instr.imm .sltiu (rtOf w) (rsOf w) (immOf w)) = some m := h
  cases hm
  have hlui : op w ≠ EXE_LUI := by
    rw [hop]
    decide
  rw [outcome_imm held cp0 regs hi lo w pc .sltiu hop]
  simp only [Instr.exec, immResult, ImmFn.value]
  rw [write_inj, boolWord_inj, ult_extend_iff]
  unfold ImmFits
  constructor
  · intro hn
    exact ⟨fun _ => hn, fun he => absurd he hlui⟩
  · intro hf
    exact hf.1 hop

theorem lui_iff {m : Instr} (hop : op w = EXE_LUI)
    (h : mips32.byOpcode (op w) (rsOf w) (rtOf w) (immOf w) (w.extractLsb' 0 26) = some m) :
    idExOutcome held cp0 regs hi lo w pc = m.exec pc (readGpr regs) hi lo ↔ ImmFits regs w := by
  rw [hop] at h
  have hm : some (Instr.lui (rtOf w) (immOf w)) = some m := h
  cases hm
  have hsltiu : op w ≠ EXE_SLTIU := by
    rw [hop]
    decide
  rw [outcome_lui held cp0 regs hi lo w pc hop]
  simp only [Instr.exec]
  rw [write_inj]
  unfold ImmFits
  constructor
  · intro he
    exact ⟨fun hc => absurd hc hsltiu, fun _ => he⟩
  · intro hf
    exact hf.2 hop

/-- For every word that `id` decodes as an integer operation, a branch or a jump, at every
address and for all register values, the two stages do what MIPS32 says if and only if the
immediate fits. -/
theorem isa_iff (hs : Supported w) :
    ∃ m, mips32.instr w = some m ∧
      (idExOutcome held cp0 regs hi lo w pc = m.exec pc (readGpr regs) hi lo ↔
        ImmFits regs w) := by
  by_cases hop : op w = EXE_SPECIAL_INST
  · have hin : mips32.instr w = mips32.special (rsOf w) (rtOf w) (rdOf w) (op2 w) (op3 w) :=
      if_pos hop
    rcases hm : mips32.special (rsOf w) (rtOf w) (rdOf w) (op2 w) (op3 w) with _ | m
    · exact absurd hs (not_supported_special w hop hm)
    · refine ⟨m, hin.trans hm, ?_⟩
      rw [outcome_special held cp0 regs hi lo w pc hop hm]
      unfold ImmFits
      rw [hop]
      simp +decide
  · have hin : mips32.instr w =
        mips32.byOpcode (op w) (rsOf w) (rtOf w) (immOf w) (w.extractLsb' 0 26) := if_neg hop
    rcases hm : mips32.byOpcode (op w) (rsOf w) (rtOf w) (immOf w) (w.extractLsb' 0 26) with _ | m
    · exact absurd hs (not_supported_opcode w hop hm)
    · refine ⟨m, hin.trans hm, ?_⟩
      by_cases h1 : op w = EXE_SLTIU
      · exact sltiu_iff held cp0 regs hi lo w pc h1 hm
      by_cases h2 : op w = EXE_LUI
      · exact lui_iff held cp0 regs hi lo w pc h2 hm
      rcases outcome_opcode held cp0 regs hi lo w pc hm with ho | ⟨hc, _⟩ | ⟨hc, _⟩
      · have hfit : ImmFits regs w := ⟨fun hc => absurd hc h1, fun hc => absurd hc h2⟩
        exact iff_of_true ho hfit
      · exact absurd hc h1
      · exact absurd hc h2

/-- `slt $1, $2, $3` with a negative and a positive number. -/
theorem isa_iff_of_slt :
    ∃ m, mips32.instr 0x0043082A#32 = some m ∧
      (idExOutcome ⟨ZeroWord, 0#64, 0#5⟩ ⟨.off, .off, ZeroWord⟩
          (fun r => if r = 2#5 then 0xFFFFFFFF#32 else 7#32) ZeroWord ZeroWord
          0x0043082A#32 0x80000000#32 =
          m.exec 0x80000000#32
            (readGpr fun r => if r = 2#5 then 0xFFFFFFFF#32 else 7#32) ZeroWord ZeroWord ↔
        ImmFits (fun r => if r = 2#5 then 0xFFFFFFFF#32 else 7#32) 0x0043082A#32) :=
  isa_iff _ _ _ _ _ _ _ (by decide)

/-- `sltiu $1, $2, 0xFFFF` with 0x10000 in `$2`: MIPS32 compares with 0xFFFFFFFF. -/
theorem sltiu_extends_by_zeros :
    ¬ ∀ (held : ExHeld) (cp0 : Cp0Fwd) (regs : RegFile) (hi lo w pc : Word), Supported w →
      ∃ m, mips32.instr w = some m ∧
        idExOutcome held cp0 regs hi lo w pc = m.exec pc (readGpr regs) hi lo := by
  intro h
  obtain ⟨m, hm, he⟩ := h ⟨ZeroWord, 0#64, 0#5⟩ ⟨.off, .off, ZeroWord⟩ (fun _ => 0x10000#32)
    ZeroWord ZeroWord 0x2C41FFFF#32 0x80000000#32 (by decide)
  have hi : mips32.instr 0x2C41FFFF#32 = some (.imm .sltiu 1#5 2#5 0xFFFF#16) := by decide
  rw [hi] at hm
  cases hm
  revert he
  decide

end nehcpu.cpu
