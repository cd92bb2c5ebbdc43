-- `id` and `ex` together against MIPS32: for every word that `id` decodes as an
-- integer operation, a branch or a jump, the register write, the HI/LO write and
-- the branch of the two stages, with nothing in the stages below them.
import Nehcpu.Cpu.Core
import Nehcpu.Cpu.Mips32
import Mathlib.Tactic.SplitIfs

namespace nehcpu.cpu

open mips32 (Outcome Instr RegFn ShiftFn ImmFn EqCond ZeroCond readGpr)

/-! ## The two stages -/

/-- An operand of `id` when no instruction is in the stages below. -/
def operand (regs : RegFile) (read : Bool) (addr : RegAddr) (imm : Word) : Word :=
  reg_o ZeroWord ⟨.NOP, .off, .off⟩ read addr (regs.rdata .off read addr) imm

def operand1 (regs : RegFile) (w : Word) : Word :=
  operand regs (decode w).reg1_read_o (decode w).reg1_addr_o (decode w).imm

def operand2 (regs : RegFile) (w : Word) : Word :=
  operand regs (decode w).reg2_read_o (decode w).reg2_addr_o (decode w).imm

/-- What `id` hands to `ex` for the word `w` at `pc`. -/
def decoded (regs : RegFile) (w pc : Word) : IdEx :=
  idOut w pc (operand1 regs w) (operand2 regs w) false false

/-- What `id` and `ex` do for the word `w` at `pc`. -/
def idExOutcome (held : ExHeld) (cp0 : Cp0Fwd) (regs : RegFile) (hi lo w pc : Word) : Outcome where
  dest :=
    let r := ex_reg held (decoded regs w pc) (hi, lo) cp0
    if r.wreg then some (r.wd, r.wdata) else none
  hilo :=
    let r := ex_hilo held (decoded regs w pc) (hi, lo)
    if r.whilo then some (r.hi, r.lo) else none
  target :=
    let b := branch w pc (operand1 regs w) (operand2 regs w)
    if b.branch_flag_o then some b.branch_target_addr_o else none

@[simp] theorem operand_read (regs : RegFile) (addr : RegAddr) (imm : Word) :
    operand regs true addr imm = readGpr regs addr := by
  unfold operand readGpr RegFile.rdata
  simp [reg_o, stallreq_for_reg_loadrelate, pre_inst_is_load, RegWrite.off]

@[simp] theorem operand_imm (regs : RegFile) (addr : RegAddr) (imm : Word) :
    operand regs false addr imm = imm := by
  simp [operand, reg_o, stallreq_for_reg_loadrelate, pre_inst_is_load]

/-! ## The order of the decoder -/

/-- `inst_i[31:21]` is the opcode and `rs`. -/
theorem high_eq_append (w : Word) : w.extractLsb' 21 11 = op w ++ rsOf w := by
  have h : op w ++ rsOf w = w.extractLsb' 21 (6 + 5) :=
    BitVec.extractLsb'_append_extractLsb'_eq_extractLsb' rfl
  exact h.symm

theorem high_eq_iff (w : Word) (o : BitVec 6) (r : BitVec 5) :
    w.extractLsb' 21 11 = o ++ r ↔ op w = o ∧ rsOf w = r := by
  rw [high_eq_append]
  constructor
  · intro h
    constructor
    · rw [← BitVec.extractLsb'_append_eq_left (a := op w) (b := rsOf w), h,
        BitVec.extractLsb'_append_eq_left]
    · rw [← BitVec.extractLsb'_append_eq_right (a := op w) (b := rsOf w), h,
        BitVec.extractLsb'_append_eq_right]
  · rintro ⟨h1, h2⟩
    rw [h1, h2]

/-- Only an opcode of COP0 reaches the last four `if`s of the decoder. -/
theorem decode_eq_shifts (w : Word) (h : op w ≠ 0b010000#6) :
    decode w = ((Decode.start w).caseOp w).shifts w := by
  have hm : w.extractLsb' 21 11 ≠ 0b01000000000#11 := fun he =>
    h ((high_eq_iff w 0b010000#6 0b00000#5).1 he).1
  have ht : w.extractLsb' 21 11 ≠ 0b01000000100#11 := fun he =>
    h ((high_eq_iff w 0b010000#6 0b00100#5).1 he).1
  have he : w ≠ EXE_ERET := by
    rintro rfl
    exact h (by decide)
  have hw : w ≠ EXE_TLBWI := by
    rintro rfl
    exact h (by decide)
  unfold decode Decode.mfc0 Decode.mtc0 Decode.eret Decode.tlbwi
  rw [if_neg hw, if_neg he, if_neg fun hc => ht hc.1, if_neg fun hc => hm hc.1]

theorem shifts_of_op (d : Decode) (w : Word) (h : op w ≠ EXE_SPECIAL_INST) : d.shifts w = d := by
  unfold Decode.shifts
  exact if_neg fun he => h ((high_eq_iff w 0b000000#6 0b00000#5).1 he).1

/-- An opcode other than SPECIAL and COP0 leaves `case (op)` alone to decide. -/
theorem decode_of_op (w : Word) (h0 : op w ≠ EXE_SPECIAL_INST) (h : op w ≠ 0b010000#6) :
    decode w = (Decode.start w).caseOp w := by
  rw [decode_eq_shifts w h, shifts_of_op _ w h0]

/-- The function field of SPECIAL, where it is no shift by `sa`. -/
theorem decode_special (w : Word) (hop : op w = EXE_SPECIAL_INST) (hsa : op2 w = 0b00000#5)
    (h1 : op3 w ≠ EXE_SLL) (h2 : op3 w ≠ EXE_SRL) (h3 : op3 w ≠ EXE_SRA) :
    decode w = (Decode.start w).special w := by
  rw [decode_eq_shifts w (by rw [hop]; decide)]
  have hc : (Decode.start w).caseOp w = (Decode.start w).special w := by
    unfold Decode.caseOp
    rw [if_pos hop, if_pos hsa]
  rw [hc]
  unfold Decode.shifts
  rw [if_neg h1, if_neg h2, if_neg h3, ite_self]

def shiftAluop : ShiftFn → AluOp
  | .sll => .SLL
  | .srl => .SRL
  | .sra => .SRA

/-- The three shifts by `sa`, which `case (op3)` leaves alone. -/
theorem decode_shift (f : ShiftFn) (w : Word) (hop : op w = EXE_SPECIAL_INST)
    (hrs : rsOf w = 0b00000#5) (hf : op3 w = f.funct) :
    decode w = (Decode.start w).shiftArm w (shiftAluop f) := by
  rw [decode_eq_shifts w (by rw [hop]; decide)]
  have hc : (Decode.start w).caseOp w = Decode.start w := by
    unfold Decode.caseOp
    rw [if_pos hop]
    split
    · cases f <;> simp +decide only [Decode.special, hf, ShiftFn.funct] <;> rfl
    · rfl
  have hh : w.extractLsb' 21 11 = 0b00000000000#11 :=
    (high_eq_iff w 0b000000#6 0b00000#5).2 ⟨hop, hrs⟩
  rw [hc]
  unfold Decode.shifts
  rw [if_pos hh]
  cases f <;> simp +decide only [hf, ShiftFn.funct] <;> rfl

/-! ## Values -/

theorem sign_bit (a : Word) : getElem a 31 bit31_lt = decide (2 ^ 31 ≤ a.toNat) := by
  have h : a[31] = a.msb := by simp [BitVec.msb_eq_getLsbD_last]
  rw [h, BitVec.msb_eq_decide]

theorem boolWord_eq (b : Bool) : (BitVec.ofBool b).zeroExtend 32 = mips32.boolWord b := by
  cases b <;> decide

theorem neg_sum (a b : Word) : a + (~~~b + 1#32) = a - b := by
  rw [← BitVec.neg_eq_not_add, BitVec.sub_eq_add_neg]

/-- The comparison by sign bits and the sign of the difference is the signed one. -/
theorem reg1_lt_reg2_slt (a b : Word) : reg1_lt_reg2 .SLT a b = a.slt b := by
  have hsum : (result_sum .SLT a b).toNat = (2 ^ 32 - b.toNat + a.toNat) % 2 ^ 32 := by
    have hneg : result_sum .SLT a b = a - b := neg_sum a b
    rw [hneg, BitVec.toNat_sub]
  have ha := a.isLt
  have hb := b.isLt
  unfold reg1_lt_reg2
  rw [if_pos rfl, sign_bit, sign_bit, sign_bit, hsum, BitVec.slt, BitVec.toInt_eq_toNat_cond,
    BitVec.toInt_eq_toNat_cond, Bool.eq_iff_iff]
  simp only [Bool.or_eq_true, Bool.and_eq_true, decide_eq_true_eq, Bool.not_eq_true',
    decide_eq_false_iff_not]
  omega

theorem getElem_signFill (b : Word) (j : Nat) (hj : j < 32) : (signFill b)[j] = b[31] := by
  unfold signFill
  cases b[31]
  · simp
  · exact BitVec.getElem_allOnes j hj

/-- The arithmetic shift is put together from the sign and the logical one. For a shift by
zero the sign is shifted by 32, which leaves nothing of it. -/
theorem shiftres_sra (a b : Word) : shiftres .SRA a b = b.sshiftRight (a.toNat % 32) := by
  have hsa : (a.extractLsb' 0 5).toNat = a.toNat % 32 := by simp
  have hlt : a.toNat % 32 < 32 := Nat.mod_lt _ (by decide)
  have hn : (32#6 - (0#1 ++ a.extractLsb' 0 5)).toNat = 32 - a.toNat % 32 := by
    have h1 : (0#1 ++ a.extractLsb' 0 5 : BitVec 6).toNat = a.toNat % 32 :=
      (BitVec.toNat_append (0#1) (a.extractLsb' 0 5)).trans (by simp)
    rw [BitVec.toNat_sub, h1]
    simp only [BitVec.toNat_ofNat]
    omega
  have hb : b.msb = b[31] := by simp [BitVec.msb_eq_getLsbD_last]
  simp only [shiftres]
  ext i hi
  rw [BitVec.getElem_or, BitVec.getElem_sshiftRight, BitVec.shiftLeft_eq', BitVec.ushiftRight_eq',
    hn, hsa, BitVec.getElem_shiftLeft, BitVec.getElem_ushiftRight, hb]
  by_cases hk : a.toNat % 32 + i < 32
  · have h1 : i < 32 - a.toNat % 32 := by omega
    rw [dif_pos hk, decide_eq_true h1, ← BitVec.getLsbD_eq_getElem hk]
    simp
  · have h1 : ¬ i < 32 - a.toNat % 32 := by omega
    rw [dif_neg hk, decide_eq_false h1, getElem_signFill,
      BitVec.getLsbD_of_ge _ _ (Nat.le_of_not_lt hk)]
    simp

theorem shiftres_eq (f : ShiftFn) (a b : Word) :
    shiftres (shiftAluop f) a b = f.value b (a.toNat % 32) := by
  have hsa : (a.extractLsb' 0 5).toNat = a.toNat % 32 := by simp
  cases f with
  | sll =>
    simp only [shiftAluop, shiftres, ShiftFn.value]
    rw [BitVec.shiftLeft_eq', hsa]
  | srl =>
    simp only [shiftAluop, shiftres, ShiftFn.value]
    rw [BitVec.ushiftRight_eq', hsa]
  | sra => exact shiftres_sra a b

/-- Sign extension is the magnitude with its sign. -/
theorem signExtend_eq_mult_op (a : Word) :
    a.signExtend 64 =
      if getElem a 31 bit31_lt then -((mult_op a).zeroExtend 64)
      else (mult_op a).zeroExtend 64 := by
  have ha := a.isLt
  unfold mult_op
  rw [sign_bit]
  by_cases h : 2 ^ 31 ≤ a.toNat
  · have hd : decide (2 ^ 31 ≤ a.toNat) = true := decide_eq_true h
    rw [hd, if_pos rfl, if_pos rfl, ← BitVec.neg_eq_not_add]
    apply BitVec.eq_of_toNat_eq
    rw [BitVec.toNat_signExtend, BitVec.msb_eq_decide, hd, BitVec.toNat_neg]
    simp only [BitVec.toNat_setWidth, BitVec.toNat_neg, if_pos]
    omega
  · have hd : decide (2 ^ 31 ≤ a.toNat) = false := decide_eq_false h
    rw [hd, if_neg Bool.false_ne_true, if_neg Bool.false_ne_true]
    apply BitVec.eq_of_toNat_eq
    rw [BitVec.toNat_signExtend, BitVec.msb_eq_decide, hd]
    simp only [BitVec.toNat_setWidth]
    simp

/-- The product of the magnitudes, negated where the signs differ, is the signed product. -/
theorem mulres_mult (held : BitVec 64) (a b : Word) :
    mulres held .MULT a b = a.signExtend 64 * b.signExtend 64 := by
  rw [signExtend_eq_mult_op a, signExtend_eq_mult_op b]
  simp only [mulres, hilo_temp]
  cases a[31] <;> cases b[31]
  · rfl
  · simp [← BitVec.neg_eq_not_add]
  · simp [← BitVec.neg_eq_not_add]
  · simp

theorem getElem_append_zero (v : BitVec 16) (i : Nat) (hi : i < 18) :
    (v ++ 0#2)[i] = if i < 2 then false else v.getLsbD (i - 2) := by
  have h := BitVec.getLsbD_append (x := v) (y := 0#2) (i := i)
  rw [← BitVec.getLsbD_eq_getElem]
  simpa using h

/-- Extending after the two zero bits is extending before the shift. -/
theorem imm_sll2_signed_eq (w : Word) : imm_sll2_signed w = (immOf w).signExtend 32 <<< 2 := by
  unfold imm_sll2_signed
  generalize immOf w = v
  have hm : (v ++ 0#2).msb = v.msb := by
    rw [BitVec.msb_append]
    simp
  ext i hi
  rw [BitVec.getElem_signExtend, BitVec.getElem_shiftLeft, hm]
  by_cases h18 : i < 18
  · rw [dif_pos h18, getElem_append_zero v i h18]
    by_cases h2 : i < 2
    · simp [h2]
    · have h16 : i - 2 < 16 := by omega
      rw [if_neg h2, BitVec.getElem_signExtend, dif_pos h16, ← BitVec.getLsbD_eq_getElem]
      simp [h2]
  · have h16 : ¬ i - 2 < 16 := by omega
    have h2 : ¬ i < 2 := by omega
    rw [dif_neg h18, BitVec.getElem_signExtend, dif_neg h16]
    simp [h2]

/-! ## Branch conditions -/

theorem isBgtz (a : Word) : (!getElem a 31 bit31_lt && a != ZeroWord) = ZeroCond.bgtz.holds a := by
  have ha := a.isLt
  simp only [ZeroCond.holds]
  rw [sign_bit, BitVec.slt, BitVec.toInt_eq_toNat_cond, BitVec.toInt_eq_toNat_cond,
    Bool.eq_iff_iff]
  simp [← BitVec.toNat_inj]
  omega

theorem isBlez (a : Word) : (getElem a 31 bit31_lt || a == ZeroWord) = ZeroCond.blez.holds a := by
  have ha := a.isLt
  simp only [ZeroCond.holds]
  rw [sign_bit, BitVec.sle, BitVec.toInt_eq_toNat_cond, BitVec.toInt_eq_toNat_cond,
    Bool.eq_iff_iff]
  simp [← BitVec.toNat_inj]
  omega

theorem isBltz (a : Word) : getElem a 31 bit31_lt = ZeroCond.bltz.holds a := by
  have ha := a.isLt
  simp only [ZeroCond.holds]
  rw [sign_bit, BitVec.slt, BitVec.toInt_eq_toNat_cond, BitVec.toInt_eq_toNat_cond,
    Bool.eq_iff_iff]
  simp
  omega

theorem isBgez (a : Word) : (!getElem a 31 bit31_lt) = ZeroCond.bgez.holds a := by
  have ha := a.isLt
  simp only [ZeroCond.holds]
  rw [sign_bit, BitVec.sle, BitVec.toInt_eq_toNat_cond, BitVec.toInt_eq_toNat_cond,
    Bool.eq_iff_iff]
  simp
  omega

end nehcpu.cpu
