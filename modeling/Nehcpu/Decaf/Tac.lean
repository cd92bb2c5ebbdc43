-- The three-address code of the decaf compiler: temps, labels, the instructions of `Tac.java`
-- and the functions that the translater hands to the backend.
import Mathlib.Data.List.Nodup
import Mathlib.Tactic.Common

namespace nehcpu.decaf

/-! ## Instructions -/

/-- Two temps are equal when their ids are. -/
structure Temp where
  id : Nat
deriving DecidableEq

structure Label where
  id : Nat
deriving DecidableEq

inductive BinaryKind
  | add | sub | mul | div | mod | land | lor | gtr | geq | equ | neq | leq | les
deriving DecidableEq

inductive UnaryKind
  | neg | lnot | assign
deriving DecidableEq

/-- One instruction, with the operands that its kind has. A call of a function without a
result has no `op0`, and neither has a return without a value. -/
inductive Tac
  | binary (opc : BinaryKind) (op0 op1 op2 : Temp)
  | unary (opc : UnaryKind) (op0 op1 : Temp)
  | loadVtbl (op0 : Temp) (vt : String)
  | indirectCall (op0 : Option Temp) (op1 : Temp)
  | directCall (op0 : Option Temp) (label : Label)
  | ret (op0 : Option Temp)
  | branch (label : Label)
  | beqz (op0 : Temp) (label : Label)
  | bnez (op0 : Temp) (label : Label)
  | load (op0 op1 : Temp) (offset : Int)
  | store (op0 op1 : Temp) (offset : Int)
  | loadImm4 (op0 : Temp) (value : Int)
  | loadStrConst (op0 : Temp) (str : String)
  | memo (str : String)
  | mark (label : Label)
  | parm (op0 : Temp)
  | mult (op0 op1 : Temp)
  | mflo (op0 : Temp)
deriving DecidableEq

/-- The label that a jump goes to. -/
def Tac.target? : Tac → Option Label
  | .branch l | .beqz _ l | .bnez _ l => some l
  | _ => none

/-- The label that the instruction marks. -/
def Tac.marked? : Tac → Option Label
  | .mark l => some l
  | _ => none

def Tac.isMemo : Tac → Bool
  | .memo _ => true
  | _ => false

def Tac.isMark (t : Tac) : Bool := t.marked?.isSome

/-- BEQZ and BNEZ, which may fall through. -/
def Tac.isTest : Tac → Bool
  | .beqz _ _ | .bnez _ _ => true
  | _ => false

/-- RETURN, BRANCH, BEQZ and BNEZ, which end a basic block. -/
def Tac.isJump : Tac → Bool
  | .ret _ | .branch _ | .beqz _ _ | .bnez _ _ => true
  | _ => false

/-- An instruction that is carried out in its place and goes on to the next one. -/
def Tac.isPlain (t : Tac) : Bool := !t.isMemo && !t.isMark && !t.isJump

theorem Tac.kinds (t : Tac) :
    (∃ str, t = .memo str) ∨ (∃ l, t = .mark l) ∨ t.isJump = true ∨ t.isPlain = true := by
  cases t <;> simp [isJump, isPlain, isMemo, isMark, marked?]

theorem Tac.jump_kinds {t : Tac} (h : t.isJump = true) :
    (∃ op0, t = .ret op0) ∨ (∃ l, t = .branch l) ∨ (∃ op0 l, t = .beqz op0 l) ∨
      ∃ op0 l, t = .bnez op0 l := by
  cases t <;> simp_all [isJump]

/-! ## Functions -/

/-- `label.target` for the labels of a function: `createFuncty` sets it for the entry label,
`genBranch`, `genBeqz` and `genBnez` for the label that they jump to. -/
def isTarget (entry : Label) (code : List Tac) (l : Label) : Bool :=
  l == entry || code.any fun t => t.target? == some l

/-- The instruction is still there when the blocks are cut: no MEMO and no label that
nothing jumps to. -/
def Tac.stays (target : Label → Bool) : Tac → Bool
  | .memo _ => false
  | .mark l => target l
  | _ => true

/-- Something stays behind each conditional jump, so that it can fall through. -/
def testsFollowed (target : Label → Bool) : List Tac → Bool
  | [] => true
  | t :: code => (!t.isTest || code.any (Tac.stays target)) && testsFollowed target code

/-- A function as the translater leaves it: `beginFunc` marks the entry label, each label is
marked once, and each conditional jump is given its way out before the function ends. -/
structure Functy where
  label : Label
  head : List Tac
  opens : head.head? = some (.mark label)
  markedOnce : (head.filterMap Tac.marked?).Nodup
  jumpsMarked : ∀ l ∈ head.filterMap Tac.target?, l ∈ head.filterMap Tac.marked?
  testsFollowed : testsFollowed (isTarget label head) head

/-- `label.target`, for a label of the function. -/
def Functy.target (f : Functy) (l : Label) : Bool := isTarget f.label f.head l

/-- A `Tac` object of a list: where it stood when the translater was done, which is what
tells it from the others, what it says, and the block number that is written into it. -/
structure Node where
  pos : Nat
  tac : Tac
  bbNum : Int
deriving DecidableEq

/-- The list that `head` leads to, before anything is written into it. -/
def Functy.nodes (f : Functy) : List Node :=
  f.head.zipIdx.map fun t => { pos := t.2, tac := t.1, bbNum := 0 }

/-! ## Running the list -/

/-- What a run passes: an instruction, or the end of the function behind its last one. -/
inductive Visit
  | tac (pos : Nat)
  | off
deriving DecidableEq

/-- Where a run of the list stands, `none` once the function has returned, and what it has
passed, the newest first. -/
structure Point where
  rest : Option (List Node)
  seen : List Visit

/-- `label.where`: the list from the label on. -/
def whereIs (nodes : List Node) (l : Label) : List Node :=
  nodes.dropWhile fun n => n.tac.marked? ≠ some l

/-- One step through the list. `isZero` says, for each test, what it finds: all that has been
passed is at hand, the test itself as the newest. Labels, MEMOs and BRANCHes are passed
without a trace, as no instruction comes from them. -/
def stepList (nodes : List Node) (isZero : List Visit → Bool) : Point → Option Point
  | ⟨none, _⟩ => none
  | ⟨some [], seen⟩ => some ⟨none, .off :: seen⟩
  | ⟨some (n :: rest), seen⟩ =>
    match n.tac with
    | .mark _ | .memo _ => some ⟨some rest, seen⟩
    | .branch l => some ⟨some (whereIs nodes l), seen⟩
    | .beqz _ l =>
      let seen := .tac n.pos :: seen
      some ⟨some (if isZero seen then whereIs nodes l else rest), seen⟩
    | .bnez _ l =>
      let seen := .tac n.pos :: seen
      some ⟨some (if isZero seen then rest else whereIs nodes l), seen⟩
    | .ret _ => some ⟨none, .tac n.pos :: seen⟩
    | _ => some ⟨some rest, .tac n.pos :: seen⟩

end nehcpu.decaf
