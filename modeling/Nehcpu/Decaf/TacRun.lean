-- Three-address code at work on words: what the instructions that the backend emits do to the temps
-- and to the memory, and the intrinsics of `intrinsic.c` that array code calls.
import Mathlib.Logic.Function.Basic
import Nehcpu.Cpu.Defines
import Nehcpu.Decaf.Tac
import Nehcpu.Lib.Simulation

open Function

namespace nehcpu.decaf

open cpu simulation

/-! ## The machine -/

def WORD_SIZE : Nat := 4

def MEM_BUF_SIZE : Nat := 4096

/-- Where the linker puts the buffer of `_Alloc`, the strings and the vtables. -/
structure Layout where
  buf : Word
  str : String → Word
  vtbl : String → Word
  aligned : buf.toNat % 4 = 0
  fits : buf.toNat + MEM_BUF_SIZE ≤ 2 ^ 32

/-- The temps, the register LO, the words of the memory by their addresses, the arguments of the
next call and the static variable of `_Alloc`. -/
structure Machine where
  temps : Temp → Word
  lo : Word
  mem : Word → Word
  parms : List Word
  cur_size : Word

def Machine.setTemp (m : Machine) (t : Temp) (w : Word) : Machine :=
  { m with temps := update m.temps t w }

section

variable (m : Machine) (t : Temp) (w : Word)

@[simp] theorem Machine.setTemp_temps : (m.setTemp t w).temps = update m.temps t w := rfl

@[simp] theorem Machine.setTemp_mem : (m.setTemp t w).mem = m.mem := rfl

@[simp] theorem Machine.setTemp_parms : (m.setTemp t w).parms = m.parms := rfl

@[simp] theorem Machine.setTemp_cur_size : (m.setTemp t w).cur_size = m.cur_size := rfl

@[simp] theorem Machine.setTemp_lo : (m.setTemp t w).lo = m.lo := rfl

end

def ofBool (b : Bool) : Word := if b then 1#32 else 0#32

/-- The instruction that `genAsmForBB` emits. -/
def BinaryKind.eval : BinaryKind → Word → Word → Word
  | .add, a, b => a + b
  | .sub, a, b => a - b
  | .mul, a, b => a * b
  | .div, a, b => a.sdiv b
  | .mod, a, b => a.srem b
  | .land, a, b => a &&& b
  | .lor, a, b => a ||| b
  | .gtr, a, b => ofBool (b.slt a)
  | .geq, a, b => ofBool (b.sle a)
  | .equ, a, b => ofBool (a == b)
  | .neq, a, b => ofBool (a != b)
  | .leq, a, b => ofBool (a.sle b)
  | .les, a, b => ofBool (a.slt b)

def UnaryKind.eval : UnaryKind → Word → Word
  | .neg, a => -a
  | .lnot, a => ~~~a
  | .assign, a => a

/-- An instruction that changes the machine and goes on to the next one. -/
def Machine.exec (lay : Layout) (m : Machine) : Tac → Machine
  | .binary opc op0 op1 op2 => m.setTemp op0 (opc.eval (m.temps op1) (m.temps op2))
  | .unary opc op0 op1 => m.setTemp op0 (opc.eval (m.temps op1))
  | .mult op0 op1 => { m with lo := m.temps op0 * m.temps op1 }
  | .mflo op0 => m.setTemp op0 m.lo
  | .load op0 op1 offset => m.setTemp op0 (m.mem (m.temps op1 + BitVec.ofInt 32 offset))
  | .store op0 op1 offset =>
    { m with mem := update m.mem (m.temps op1 + BitVec.ofInt 32 offset) (m.temps op0) }
  | .loadImm4 op0 value => m.setTemp op0 (BitVec.ofInt 32 value)
  | .loadStrConst op0 str => m.setTemp op0 (lay.str str)
  | .loadVtbl op0 vt => m.setTemp op0 (lay.vtbl vt)
  | .parm op0 => { m with parms := m.parms ++ [m.temps op0] }
  | _ => m

/-! ## The intrinsics -/

inductive Intrinsic
  | PRINT_STRING | HALT | ALLOCATE
deriving DecidableEq

/-- The labels of the intrinsics are made before all others. -/
def Intrinsic.label : Intrinsic → Label
  | .PRINT_STRING => ⟨0⟩
  | .HALT => ⟨1⟩
  | .ALLOCATE => ⟨2⟩

/-- `_Alloc`: the offset of the block in the buffer and the new `cur_size`, or the program stops. The
numbers are of type `int`, and the addition wraps. -/
def _Alloc (cur_size size : Word) : Option (Word × Word) :=
  let size := size + ((4#32 - (size &&& 3#32)) &&& 3#32)
  let cur_size' := cur_size + size
  if (BitVec.ofNat 32 MEM_BUF_SIZE).slt cur_size' then none else some (cur_size, cur_size')

/-- The call of an intrinsic. `_Halt` does not come back. -/
def Machine.call (lay : Layout) (m : Machine) (op0 : Option Temp) (label : Label) :
    Option Machine :=
  if label = Intrinsic.HALT.label then none
  else if label = Intrinsic.ALLOCATE.label then
    (_Alloc m.cur_size (m.parms.headD 0#32)).map fun (offset, cur_size) =>
      let m := { m with parms := [], cur_size := cur_size }
      match op0 with
      | some t => m.setTemp t (lay.buf + offset)
      | none => m
  else some { m with parms := [] }

/-! ## Running code -/

/-- What is still to be run, `none` where the program has stopped, and the machine. -/
structure Run where
  rest : Option (List Tac)
  m : Machine

/-- The code from a label on. -/
def whereTac (code : List Tac) (l : Label) : List Tac :=
  code.dropWhile fun t => t.marked? ≠ some l

/-- One instruction of a piece of code that keeps to itself. At its end the run stays. -/
def stepTac (lay : Layout) (code : List Tac) : Run → Option Run
  | ⟨none, _⟩ => none
  | ⟨some [], _⟩ => none
  | ⟨some (t :: rest), m⟩ =>
    match t with
    | .branch l => some ⟨some (whereTac code l), m⟩
    | .beqz op0 l => some ⟨some (if m.temps op0 = 0#32 then whereTac code l else rest), m⟩
    | .bnez op0 l => some ⟨some (if m.temps op0 = 0#32 then rest else whereTac code l), m⟩
    | .ret _ => some ⟨some [], m⟩
    | .directCall op0 l =>
      match m.call lay op0 l with
      | some m' => some ⟨some rest, m'⟩
      | none => some ⟨none, m⟩
    | t => some ⟨some rest, m.exec lay t⟩

/-- The code runs to its end. -/
def Completes (lay : Layout) (code : List Tac) (m m' : Machine) : Prop :=
  Reaches (stepTac lay code) ⟨some code, m⟩ ⟨some [], m'⟩

/-- The code stops the program. -/
def Stops (lay : Layout) (code : List Tac) (m : Machine) : Prop :=
  ∃ m', Reaches (stepTac lay code) ⟨some code, m⟩ ⟨none, m'⟩

/-- An instruction after which comes the next one. -/
def Tac.isStraight : Tac → Bool
  | .branch _ | .beqz _ _ | .bnez _ _ | .ret _ | .directCall _ _ => false
  | _ => true

section

variable {lay : Layout} {code : List Tac} {m m' : Machine}

theorem step_straight {t : Tac} (h : t.isStraight = true) (rest : List Tac) :
    stepTac lay code ⟨some (t :: rest), m⟩ = some ⟨some rest, m.exec lay t⟩ := by
  cases t <;> first | rfl | cases h

/-- Instructions without a jump run one after the other. -/
theorem reaches_straight {ts : List Tac} (h : ∀ t ∈ ts, t.isStraight = true) (rest : List Tac) :
    Reaches (stepTac lay code) ⟨some (ts ++ rest), m⟩ ⟨some rest, ts.foldl (Machine.exec lay) m⟩ := by
  induction ts generalizing m with
  | nil => exact Reaches.refl _
  | cons t ts ih =>
    have hrest := ih (fun u hu => h u (List.mem_cons_of_mem t hu)) (m := m.exec lay t)
    exact Reaches.head (step_straight (h t List.mem_cons_self) (ts ++ rest)) hrest

theorem Completes.not_stops (h : Completes lay code m m') : ¬ Stops lay code m := by
  rintro ⟨u, hu⟩
  have he := Reaches.unique h hu rfl rfl
  cases he

theorem Completes.unique {m'' : Machine} (h : Completes lay code m m')
    (h' : Completes lay code m m'') : m' = m'' := by
  have he := Reaches.unique h h' rfl rfl
  exact congrArg Run.m he

end

end nehcpu.decaf
