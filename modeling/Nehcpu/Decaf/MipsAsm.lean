-- The lines of assembly that `MipsAsm.java` formats, how an assembler reads them, and the lines that
-- `Mips.genAsmForBB` prints for a constant.
import Mathlib.Logic.Function.Basic
import Nehcpu.Cpu.Defines

open Function

namespace nehcpu.decaf

open cpu

/-! ## Registers -/

inductive RegId
  | ZERO | AT | V0 | V1 | A0 | A1 | A2 | A3 | K0 | K1 | GP | SP | FP | RA | T0 | T1 | T2
  | T3 | T4 | T5 | T6 | T7 | T8 | T9 | S0 | S1 | S2 | S3 | S4 | S5 | S6 | S7
deriving DecidableEq

/-- The registers from T0 on. S7 is not among them, since the length is a difference of ordinals. -/
def GENERAL_REGS : List RegId :=
  [.T0, .T1, .T2, .T3, .T4, .T5, .T6, .T7, .T8, .T9, .S0, .S1, .S2, .S3, .S4, .S5, .S6]

/-- A register that the allocator gives to a temp. -/
abbrev GeneralReg := { r : RegId // r ∈ GENERAL_REGS }

theorem GeneralReg.ne_zero (r : GeneralReg) : r.val ≠ .ZERO := by
  intro h
  have hr := r.property
  rw [h] at hr
  revert hr
  decide

/-! ## Formats -/

/-- What is handed to `String.format`. -/
inductive Arg
  | name (s : String)
  | reg (r : RegId)
  | int (v : Int)
deriving DecidableEq

/-- A format: `%-6s`, `%s` and what stands between them. -/
inductive FormatPiece
  | padded
  | arg
  | lit (s : String)
deriving DecidableEq

def FORMAT0 : List FormatPiece := [.padded]

def FORMAT1 : List FormatPiece := [.padded, .arg]

def FORMAT2 : List FormatPiece := [.padded, .arg, .lit ", ", .arg]

def FORMAT3 : List FormatPiece := [.padded, .arg, .lit ", ", .arg, .lit ", ", .arg]

def FORMAT4 : List FormatPiece := [.padded, .arg, .lit ", ", .arg, .lit "(", .arg, .lit ")"]

/-- What stands in a formatted line. -/
inductive Token
  | shown (a : Arg)
  | lit (s : String)
deriving DecidableEq

/-- `String.format`: each `%` takes the next argument. It throws when there is none, and arguments
that are left over are not printed. -/
def formatLine : List FormatPiece → List Arg → Option (List Token)
  | [], _ => some []
  | .lit s :: pieces, args => (formatLine pieces args).map (Token.lit s :: ·)
  | _ :: _, [] => none
  | _ :: pieces, a :: args => (formatLine pieces args).map (Token.shown a :: ·)

/-- The arguments of the constructor of `MipsAsm`. -/
structure MipsAsm where
  format : List FormatPiece
  opc : String
  ops : List Arg

/-- `MipsAsm.toString`. The constructor throws when it is given more than three operands. -/
def MipsAsm.toTokens (asm : MipsAsm) : Option (List Token) :=
  if asm.ops.length ≤ 3 then formatLine asm.format (.name asm.opc :: asm.ops) else none

/-- The arguments that stand in the line. -/
def shown (line : List Token) : List Arg :=
  line.filterMap fun
    | .shown a => some a
    | .lit _ => none

/-- Every operand is printed. -/
def MipsAsm.printsAll (asm : MipsAsm) : Bool :=
  asm.toTokens.map shown == some (.name asm.opc :: asm.ops)

/-! ## The assembler and the instructions -/

/-- The instructions that load constants. `li` is one for the assembler, which has its own way to
load any number of 32 bits. -/
inductive LoadInstr
  | li (rd : RegId) (value : Word)
  | lui (rd : RegId) (imm : BitVec 16)
  | addiu (rd rs : RegId) (imm : BitVec 16)

/-- A line is read only with operands of the kinds that the instruction has, and numbers that fit:
the immediate of `lui` is a number of 16 bits without a sign, that of `addiu` one with a sign. -/
def assemble : List Token → Option LoadInstr
  | [.shown (.name opc), .shown (.reg rd), .lit ", ", .shown (.int v)] =>
    if opc = "li" then
      if -2 ^ 31 ≤ v ∧ v < 2 ^ 32 then some (.li rd (BitVec.ofInt 32 v)) else none
    else if opc = "lui" then
      if 0 ≤ v ∧ v < 2 ^ 16 then some (.lui rd (BitVec.ofInt 16 v)) else none
    else none
  | [.shown (.name opc), .shown (.reg rd), .lit ", ", .shown (.reg rs), .lit ", ", .shown (.int v)] =>
    if opc = "addiu" then
      if -2 ^ 15 ≤ v ∧ v < 2 ^ 15 then some (.addiu rd rs (BitVec.ofInt 16 v)) else none
    else none
  | _ => none

/-- A register is written, and the zero register stays zero. -/
def writeReg (regs : RegId → Word) (rd : RegId) (w : Word) : RegId → Word :=
  if rd = .ZERO then regs else update regs rd w

def LoadInstr.exec (regs : RegId → Word) : LoadInstr → RegId → Word
  | .li rd value => writeReg regs rd value
  | .lui rd imm => writeReg regs rd (imm.setWidth 32 <<< 16)
  | .addiu rd rs imm => writeReg regs rd (regs rs + imm.signExtend 32)

/-- The registers after the lines, when the assembler takes all of them. -/
def runLines (regs : RegId → Word) : List MipsAsm → Option (RegId → Word)
  | [] => some regs
  | asm :: rest =>
    match asm.toTokens.bind assemble with
    | none => none
    | some instr => runLines (instr.exec regs) rest

/-! ## Constants -/

/-- `genAsmForBB` for LOAD_IMM4, on a register and a number of type `int`. -/
def loadImm4 (rd : GeneralReg) (value : Word) : List MipsAsm :=
  let high := value.sshiftRight 16
  let low := value &&& 0xFFFF#32
  if high = 0#32 then
    [⟨FORMAT2, "li", [.reg rd.val, .int low.toInt]⟩]
  else
    ⟨FORMAT2, "lui", [.reg rd.val, .int high.toInt]⟩ ::
      if low ≠ 0#32 then [⟨FORMAT2, "addiu", [.reg rd.val, .reg rd.val, .int low.toInt]⟩] else []

/-- The lines print all their operands, the assembler takes them, and they leave the constant in the
register. -/
structure LoadsConstant (rd : GeneralReg) (value : Word) : Prop where
  prints : ∀ asm ∈ loadImm4 rd value, asm.printsAll = true
  loads : ∀ regs, ∃ regs', runLines regs (loadImm4 rd value) = some regs' ∧ regs' rd.val = value

section

variable (rd : GeneralReg) (value : Word)

theorem sshiftRight_eq_zero_iff : value.sshiftRight 16 = 0#32 ↔ value.toNat < 2 ^ 16 := by
  rw [← BitVec.toInt_inj, BitVec.toInt_sshiftRight, BitVec.toInt_zero]
  have h := BitVec.toInt_eq_toNat_cond value
  have hlt := value.isLt
  rw [Int.shiftRight_eq_div_pow]
  split at h <;> omega

theorem low_toInt : (value &&& 0xFFFF#32).toInt = value.toNat % 2 ^ 16 := by
  have hand : (value &&& 0xFFFF#32).toNat = value.toNat % 2 ^ 16 := by
    rw [BitVec.toNat_and]
    exact Nat.and_two_pow_sub_one_eq_mod value.toNat 16
  rw [BitVec.toInt_eq_toNat_of_lt (by omega), hand]
  rfl

theorem high_toInt : (value.sshiftRight 16).toInt = value.toInt / 2 ^ 16 := by
  rw [BitVec.toInt_sshiftRight, Int.shiftRight_eq_div_pow]
  rfl

/-- Two operands are what FORMAT2 prints. -/
theorem printsAll_two (opc : String) (a b : Arg) : MipsAsm.printsAll ⟨FORMAT2, opc, [a, b]⟩ = true := by
  simp [MipsAsm.printsAll, MipsAsm.toTokens, FORMAT2, formatLine, shown]

/-- The third operand is lost. -/
theorem not_printsAll_three (opc : String) (a b c : Arg) :
    MipsAsm.printsAll ⟨FORMAT2, opc, [a, b, c]⟩ = false := by
  simp [MipsAsm.printsAll, MipsAsm.toTokens, FORMAT2, formatLine, shown]

theorem toTokens_two (opc : String) (a b : Arg) :
    MipsAsm.toTokens ⟨FORMAT2, opc, [a, b]⟩ =
      some [.shown (.name opc), .shown a, .lit ", ", .shown b] := by
  simp [MipsAsm.toTokens, FORMAT2, formatLine]

theorem runLines_li (regs : RegId → Word) {v : Int} (h : -2 ^ 31 ≤ v ∧ v < 2 ^ 32) :
    runLines regs [⟨FORMAT2, "li", [.reg rd.val, .int v]⟩] =
      some (update regs rd.val (BitVec.ofInt 32 v)) := by
  simp only [runLines, toTokens_two, Option.bind_some, assemble, if_true, if_pos h, LoadInstr.exec,
    writeReg, if_neg rd.ne_zero]

theorem runLines_lui (regs : RegId → Word) (v : Int) :
    runLines regs [⟨FORMAT2, "lui", [.reg rd.val, .int v]⟩] =
      if 0 ≤ v ∧ v < 2 ^ 16 then
        some (update regs rd.val ((BitVec.ofInt 16 v).setWidth 32 <<< 16))
      else none := by
  have hne : ¬ "lui" = "li" := by decide
  simp only [runLines, toTokens_two, Option.bind_some, assemble, if_neg hne, if_true]
  by_cases h : 0 ≤ v ∧ v < 2 ^ 16
  · simp only [if_pos h, LoadInstr.exec, writeReg, if_neg rd.ne_zero]
  · simp only [if_neg h]

/-- What `lui` loads is the constant, when its lower half is clear. -/
theorem lui_value (h : 0 ≤ value.toInt) (hlow : value.toNat % 2 ^ 16 = 0) :
    (BitVec.ofInt 16 (value.sshiftRight 16).toInt).setWidth 32 <<< 16 = value := by
  have hv := BitVec.toInt_eq_toNat_cond value
  have hlt := value.isLt
  have hn : value.toInt = value.toNat := by
    split at hv <;> omega
  have hhigh : (value.sshiftRight 16).toInt = ((value.toNat / 2 ^ 16 : Nat) : Int) := by
    rw [high_toInt, hn]
    rfl
  rw [hhigh, BitVec.ofInt_natCast]
  apply BitVec.eq_of_toNat_eq
  rw [BitVec.toNat_shiftLeft, BitVec.toNat_setWidth, BitVec.toNat_ofNat, Nat.shiftLeft_eq]
  omega

end

/-- The constants that are loaded right: those of 16 bits, and the positive multiples of `2 ^ 16`.
Others lose the third operand of `addiu`, or have a negative upper half, which `lui` does not take. -/
theorem loadsConstant_iff (rd : GeneralReg) (value : Word) :
    LoadsConstant rd value ↔
      0 ≤ value.toInt ∧ (value.toInt < 2 ^ 16 ∨ value.toInt % 2 ^ 16 = 0) := by
  have hv := BitVec.toInt_eq_toNat_cond value
  have hlt := value.isLt
  have hlow := low_toInt value
  by_cases hhigh : value.toNat < 2 ^ 16
  · -- one `li`
    have hline : loadImm4 rd value =
        [⟨FORMAT2, "li", [.reg rd.val, .int (value &&& 0xFFFF#32).toInt]⟩] := by
      simp only [loadImm4, (sshiftRight_eq_zero_iff value).mpr hhigh, if_true]
    have hsame : (value &&& 0xFFFF#32).toInt = value.toInt := by
      rw [hlow]
      split at hv <;> omega
    rw [if_pos (by omega)] at hv
    constructor
    · intro _
      omega
    · intro _
      constructor
      · rw [hline]
        simp [printsAll_two]
      · intro regs
        rw [hline, hsame]
        refine ⟨_, runLines_li rd regs (by omega), ?_⟩
        rw [update_self, BitVec.ofInt_toInt]
  · have hne : ¬ value.sshiftRight 16 = 0#32 := fun h => hhigh ((sshiftRight_eq_zero_iff value).mp h)
    by_cases hzero : value.toNat % 2 ^ 16 = 0
    · -- one `lui`
      have hlow0 : value &&& 0xFFFF#32 = 0#32 := by
        apply BitVec.eq_of_toInt_eq
        rw [hlow, BitVec.toInt_zero]
        omega
      have hline : loadImm4 rd value =
          [⟨FORMAT2, "lui", [.reg rd.val, .int (value.sshiftRight 16).toInt]⟩] := by
        simp only [loadImm4, if_neg hne, hlow0, ne_eq, not_true, if_false]
      have hint := high_toInt value
      constructor
      · intro h
        obtain ⟨regs', hrun, -⟩ := h.loads fun _ => 0#32
        rw [hline, runLines_lui] at hrun
        by_cases hr : 0 ≤ (value.sshiftRight 16).toInt ∧ (value.sshiftRight 16).toInt < 2 ^ 16
        · split at hv <;> omega
        · rw [if_neg hr] at hrun
          cases hrun
      · rintro ⟨hpos, -⟩
        constructor
        · rw [hline]
          simp [printsAll_two]
        · intro regs
          rw [hline, runLines_lui, if_pos (by split at hv <;> omega)]
          refine ⟨_, rfl, ?_⟩
          rw [update_self, lui_value value hpos hzero]
    · -- the `addiu` behind the `lui`
      have hlow0 : value &&& 0xFFFF#32 ≠ 0#32 := by
        intro h
        rw [h] at hlow
        simp only [BitVec.toInt_zero] at hlow
        omega
      have hmem : ⟨FORMAT2, "addiu", [.reg rd.val, .reg rd.val, .int (value &&& 0xFFFF#32).toInt]⟩ ∈
          loadImm4 rd value := by
        simp [loadImm4, if_neg hne, hlow0]
      constructor
      · intro h
        have hp := h.prints _ hmem
        rw [not_printsAll_three] at hp
        cases hp
      · intro h
        split at hv <;> omega

/-- 65537 is not loaded: the line for its lower half does not show it. -/
theorem not_loadsConstant : ¬ ∀ (rd : GeneralReg) (value : Word), LoadsConstant rd value := by
  intro h
  have hp := (h ⟨.T0, by decide⟩ 65537#32).prints
  revert hp
  decide

end nehcpu.decaf
