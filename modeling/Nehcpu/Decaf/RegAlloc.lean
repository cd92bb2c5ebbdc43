-- `RegisterAllocator.java`, and what `Mips.java` prints for a block once its registers are given
-- out.
import Nehcpu.Decaf.Liveness

open Function

namespace nehcpu.decaf

/-! ## A block with its liveness -/

/-- An instruction and its `liveOut`, in the order in which the set gives its elements. -/
structure LiveTac where
  node : Node
  liveOut : List Temp

/-- A basic block as `alloc` finds it, with the sets that the liveness analysis left. Only plain
instructions are in it. -/
structure AllocBlock where
  tacs : List LiveTac
  liveIn : Finset Temp
  liveOut : List Temp
  var : Option Temp
  endKind : EndKind
  plain : ∀ x ∈ tacs, x.node.tac.isPlain = true
  outs : tacs.map (fun x => x.liveOut.toFinset) =
    tacLiveOuts (addIf liveOut.toFinset var) (tacs.map LiveTac.node)
  ins : through (addIf liveOut.toFinset var) (tacs.map LiveTac.node) ⊆ liveIn

/-! ## The state of the allocator -/

/-- The register `0`. -/
abbrev firstReg {k : Nat} : Fin (k + 1) := 0

/-- The fields that the allocator writes, with `k + 1` registers to give out: `reg.var`,
`temp.reg`, `temp.offset`, which is none before the slot is fixed, `LOCAL_OFFSET_COUNTER` and
`currentActualSize`. `random` is what `random.nextInt` will give. -/
structure AllocState (k : Nat) where
  var : Fin (k + 1) → Option Temp
  reg : Temp → Option (Fin (k + 1))
  offset : Temp → Option Int
  localOffset : Int
  currentActualSize : Int
  random : Nat → Fin (k + 1)

/-- A `Tac` of the block once it has been allocated, with the offset that a PARM gets and the
`saves` of a call, or one of those that `spill` and `load` put in. -/
inductive Item
  | tac (x : LiveTac) (actual : Int) (saves : List Temp)
  | spill (t : Temp) (offset : Int)
  | load (t : Temp) (offset : Int)

/-- A call of `findReg`. -/
inductive Access
  | read (t : Temp)
  | write (t : Temp)
deriving DecidableEq

def Access.temp : Access → Temp
  | .read t | .write t => t

def Access.isRead : Access → Bool
  | .read _ => true
  | .write _ => false

namespace AllocState

variable {k : Nat} (s : AllocState k)

def clear : AllocState k := { s with var := fun _ => none }

def bind (r : Fin (k + 1)) (t : Temp) : AllocState k :=
  { s with var := update s.var r (some t), reg := update s.reg t (some r) }

/-- `temp.reg != null && temp.equals (temp.reg.var)` -/
def inReg (t : Temp) : Bool :=
  match s.reg t with
  | none => false
  | some r => s.var r = some t

/-- `findSlot`: every temp takes four bytes. -/
def findSlot (t : Temp) : AllocState k :=
  match s.offset t with
  | some _ => s
  | none =>
    { s with
      offset := update s.offset t (some s.localOffset)
      localOffset := s.localOffset - 4 }

/-- `temp.offset`, once it is fixed. -/
def slot (t : Temp) : Int := (s.offset t).getD 0

/-- The first register that need not be spilled. -/
def free (live : Finset Temp) : Option (Fin (k + 1)) :=
  (List.finRange (k + 1)).find? fun r =>
    match s.var r with
    | none => true
    | some x => x ∉ live

/-- The first register whose temp has its slot already. -/
def fixed : Option (Fin (k + 1)) :=
  (List.finRange (k + 1)).find? fun r =>
    match s.var r with
    | none => false
    | some x => (s.offset x).isSome

/-- `bind`, and `load` for a temp that is to be read. -/
def take (r : Fin (k + 1)) (t : Temp) (read : Bool) : AllocState k × List Item :=
  let s := s.bind r t
  if read then
    let s := s.findSlot t
    (s, [.load t (s.slot t)])
  else (s, [])

/-- `spill` of what the register holds, and then as above. -/
def evict (r : Fin (k + 1)) (t : Temp) (read : Bool) : AllocState k × List Item :=
  match s.var r with
  | none => s.take r t read
  | some x =>
    let s := s.findSlot x
    let (s', items) := s.take r t read
    (s', .spill x (s.slot x) :: items)

/-- `findReg`, with what is alive in front of the instruction. -/
def findReg (live : Finset Temp) (a : Access) : AllocState k × List Item :=
  if s.inReg a.temp then (s, [])
  else
    match s.free live with
    | some r => s.take r a.temp a.isRead
    | none =>
      match s.fixed with
      | some r => s.evict r a.temp a.isRead
      | none =>
        { s with random := fun i => s.random (i + 1) }.evict (s.random 0) a.temp a.isRead

def findRegs (s : AllocState k) (live : Finset Temp) : List Access → AllocState k × List Item
  | [] => (s, [])
  | a :: as =>
    let (s, items) := s.findReg live a
    let (s, items') := s.findRegs live as
    (s, items ++ items')

/-- The loops that fill `saves`: the temps of the list that are in registers, but for `skip`. -/
def findSaves (s : AllocState k) (skip : Option Temp) : List Temp → AllocState k × List Temp
  | [] => (s, [])
  | t :: ts =>
    if s.inReg t ∧ skip ≠ some t then
      let (s, saves) := (s.findSlot t).findSaves skip ts
      (s, t :: saves)
    else s.findSaves skip ts

end AllocState

/-- The calls of `findReg` in the case of each instruction. -/
def Tac.accesses : Tac → List Access
  | .binary _ op0 op1 op2 => [.read op1, .read op2, .write op0]
  | .unary _ op0 op1 | .load op0 op1 _ => [.read op1, .write op0]
  | .mflo op0 | .loadVtbl op0 _ | .loadImm4 op0 _ | .loadStrConst op0 _ => [.write op0]
  | .indirectCall op0 op1 => .read op1 :: (op0.map Access.write).toList
  | .directCall op0 _ => (op0.map Access.write).toList
  | .parm op0 => [.read op0]
  | .store op0 op1 _ | .mult op0 op1 => [.read op1, .read op0]
  | .ret _ | .branch _ | .beqz _ _ | .bnez _ _ | .memo _ | .mark _ => []

namespace AllocState

variable {k : Nat} (s : AllocState k)

/-- One turn of the loop of `alloc`. -/
def allocTac (live : Finset Temp) (x : LiveTac) : AllocState k × List Item :=
  let (s, items) := s.findRegs live x.node.tac.accesses
  match x.node.tac with
  | .indirectCall op0 _ | .directCall op0 _ =>
    let (s, saves) := { s with currentActualSize := 4 }.findSaves op0 x.liveOut
    (s, items ++ [.tac x 0 saves])
  | .parm _ =>
    ({ s with currentActualSize := s.currentActualSize + 4 },
      items ++ [.tac x s.currentActualSize []])
  | _ => (s, items ++ [.tac x 0 []])

/-- The loop. In front of an instruction is alive what was `liveOut` of the one before. -/
def allocTacs (s : AllocState k) (live : Finset Temp) : List LiveTac → AllocState k × List Item
  | [] => (s, [])
  | x :: xs =>
    let (s, items) := s.allocTac live x
    let (s, items') := s.allocTacs x.liveOut.toFinset xs
    (s, items ++ items')

end AllocState

/-- What `alloc` leaves: the state, the instructions of the block, and its `saves` and `varReg`. -/
structure Allocated (k : Nat) where
  state : AllocState k
  items : List Item
  saves : List Temp
  varReg : Option (Fin (k + 1))

/-- The temp that a test or a RETURN at the end of the block reads. -/
def AllocBlock.reads (a : AllocBlock) : Option Temp :=
  if a.endKind = .BY_BRANCH then none else a.var

/-- `alloc`. A `var` that is in no register is loaded into the first one, whatever is there. -/
def AllocState.alloc {k : Nat} (s : AllocState k) (a : AllocBlock) : Allocated k :=
  let (s, items) := s.clear.allocTacs a.liveIn a.tacs
  let (s, saves) := s.findSaves none a.liveOut
  match a.reads with
  | none => ⟨s, items, saves, none⟩
  | some v =>
    if s.inReg v then ⟨s, items, saves, s.reg v⟩
    else
      let s := { s with reg := update s.reg v (some 0) }.findSlot v
      ⟨s, items ++ [.load v (s.slot v)], saves, some 0⟩

/-! ## The code of a block -/

/-- What an address counts from. -/
inductive Base (k : Nat)
  | reg (r : Fin (k + 1))
  | fp

/-- The instructions that `genAsmForBB` prints. `li` stands for the one or two that load a
constant, and `swArg` for the `sw` that counts from `$sp`. -/
inductive Asm (k : Nat)
  | op3 (opc : BinaryKind) (rd rs rt : Fin (k + 1))
  | negu (rd rs : Fin (k + 1))
  | not (rd rs : Fin (k + 1))
  | move (rd rs : Fin (k + 1))
  | laVtbl (rd : Fin (k + 1)) (vt : String)
  | laString (rd : Fin (k + 1)) (str : String)
  | li (rd : Fin (k + 1)) (value : Int)
  | mult (rs rt : Fin (k + 1))
  | mflo (rd : Fin (k + 1))
  | sw (rs : Fin (k + 1)) (offset : Int) (base : Base k)
  | swArg (rs : Fin (k + 1)) (offset : Int)
  | lw (rd : Fin (k + 1)) (offset : Int) (base : Base k)
  | jal (label : Label)
  | jalr (rs : Fin (k + 1))
  | moveV0 (rd : Fin (k + 1))

section

variable {k : Nat} (reg : Temp → Fin (k + 1))

/-- `genAsmForCall` -/
def genAsmForCall (saves : List Temp) (slot : Temp → Int) (call : Asm k) (op0 : Option Temp) :
    List (Asm k) :=
  saves.map (fun t => .sw (reg t) (slot t) .fp) ++ call ::
    ((op0.map fun t => Asm.moveV0 (reg t)).toList ++
      saves.map fun t => .lw (reg t) (slot t) .fp)

/-- `genAsmForBB`, for one `Tac`: every operand is printed as its `temp.reg`. -/
def genAsm (slot : Temp → Int) : Item → List (Asm k)
  | .spill t offset => [.sw (reg t) offset .fp]
  | .load t offset => [.lw (reg t) offset .fp]
  | .tac x actual saves =>
    match x.node.tac with
    | .binary opc op0 op1 op2 => [.op3 opc (reg op0) (reg op1) (reg op2)]
    | .unary .neg op0 op1 => [.negu (reg op0) (reg op1)]
    | .unary .lnot op0 op1 => [.not (reg op0) (reg op1)]
    | .unary .assign op0 op1 =>
      if reg op0 ≠ reg op1 then [.move (reg op0) (reg op1)] else []
    | .loadVtbl op0 vt => [.laVtbl (reg op0) vt]
    | .loadStrConst op0 str => [.laString (reg op0) str]
    | .loadImm4 op0 value => [.li (reg op0) value]
    | .indirectCall op0 op1 => genAsmForCall reg saves slot (.jalr (reg op1)) op0
    | .directCall op0 label => genAsmForCall reg saves slot (.jal label) op0
    | .parm op0 => [.swArg (reg op0) actual]
    | .load op0 op1 offset => [.lw (reg op0) offset (.reg (reg op1))]
    | .store op0 op1 offset => [.sw (reg op0) offset (.reg (reg op1))]
    | .mult op0 op1 => [.mult (reg op0) (reg op1)]
    | .mflo op0 => [.mflo (reg op0)]
    | _ => []

end

namespace Allocated

variable {k : Nat} (d : Allocated k)

/-- `temp.reg`, as it is when the block is printed. -/
def reg (t : Temp) : Fin (k + 1) := (d.state.reg t).getD 0

/-- The code of a part of the block. -/
def code (items : List Item) : List (Asm k) := items.flatMap (genAsm d.reg d.state.slot)

/-- The stores that `emitAsm` appends to the code of the block. -/
def stores : List (Asm k) := d.saves.map fun t => .sw (d.reg t) (d.state.slot t) .fp

end Allocated

/-! ## Running the code -/

/-- What the instructions compute, on values `V` and on a world `W`: the memory that the program
sees, the arguments of the next call, HI and LO. -/
structure Meaning (V W : Type) where
  op3 : BinaryKind → V → V → V
  negu : V → V
  not : V → V
  laVtbl : String → V
  laString : String → V
  li : Int → V
  lw : W → V → Int → V
  sw : W → V → V → Int → W
  arg : W → V → Int → W
  mult : W → V → V → W
  mflo : W → V
  call : W → Label ⊕ V → V × W

/-- The general registers, `$v0`, the frame of the function and the rest. -/
structure MipsMachine (k : Nat) (V W : Type) where
  regs : Fin (k + 1) → V
  v0 : V
  frame : Int → V
  world : W

section

variable {k : Nat} {V W : Type} (M : Meaning V W)

/-- One instruction. `left` is what a function that is called leaves in the registers. -/
def runAsm (left : W → Fin (k + 1) → V) (m : MipsMachine k V W) : Asm k → MipsMachine k V W
  | .op3 opc rd rs rt => { m with regs := update m.regs rd (M.op3 opc (m.regs rs) (m.regs rt)) }
  | .negu rd rs => { m with regs := update m.regs rd (M.negu (m.regs rs)) }
  | .not rd rs => { m with regs := update m.regs rd (M.not (m.regs rs)) }
  | .move rd rs => { m with regs := update m.regs rd (m.regs rs) }
  | .laVtbl rd vt => { m with regs := update m.regs rd (M.laVtbl vt) }
  | .laString rd str => { m with regs := update m.regs rd (M.laString str) }
  | .li rd value => { m with regs := update m.regs rd (M.li value) }
  | .mult rs rt => { m with world := M.mult m.world (m.regs rs) (m.regs rt) }
  | .mflo rd => { m with regs := update m.regs rd (M.mflo m.world) }
  | .sw rs offset (.reg r) => { m with world := M.sw m.world (m.regs rs) (m.regs r) offset }
  | .sw rs offset .fp => { m with frame := update m.frame offset (m.regs rs) }
  | .swArg rs offset => { m with world := M.arg m.world (m.regs rs) offset }
  | .lw rd offset (.reg r) => { m with regs := update m.regs rd (M.lw m.world (m.regs r) offset) }
  | .lw rd offset .fp => { m with regs := update m.regs rd (m.frame offset) }
  | .jal label =>
    let (v0, world) := M.call m.world (.inl label)
    { m with regs := left world, v0 := v0, world := world }
  | .jalr rs =>
    let (v0, world) := M.call m.world (.inr (m.regs rs))
    { m with regs := left world, v0 := v0, world := world }
  | .moveV0 rd => { m with regs := update m.regs rd m.v0 }

def runCode (left : W → Fin (k + 1) → V) (m : MipsMachine k V W) (code : List (Asm k)) :
    MipsMachine k V W :=
  code.foldl (runAsm M left) m

/-- The values of the temps and the world, as the three-address code means it. -/
structure Values (V W : Type) where
  env : Temp → V
  world : W

def Values.set (e : Values V W) (t : Temp) (v : V) : Values V W :=
  { e with env := update e.env t v }

def Values.setIf (e : Values V W) (v : V) : Option Temp → Values V W
  | none => e
  | some t => e.set t v

/-- What an instruction of the three-address code does. -/
def evalTac (actual : Int) (e : Values V W) : Tac → Values V W
  | .binary opc op0 op1 op2 => e.set op0 (M.op3 opc (e.env op1) (e.env op2))
  | .unary .neg op0 op1 => e.set op0 (M.negu (e.env op1))
  | .unary .lnot op0 op1 => e.set op0 (M.not (e.env op1))
  | .unary .assign op0 op1 => e.set op0 (e.env op1)
  | .loadVtbl op0 vt => e.set op0 (M.laVtbl vt)
  | .loadStrConst op0 str => e.set op0 (M.laString str)
  | .loadImm4 op0 value => e.set op0 (M.li value)
  | .indirectCall op0 op1 =>
    let (v, world) := M.call e.world (.inr (e.env op1))
    { e with world := world }.setIf v op0
  | .directCall op0 label =>
    let (v, world) := M.call e.world (.inl label)
    { e with world := world }.setIf v op0
  | .parm op0 => { e with world := M.arg e.world (e.env op0) actual }
  | .load op0 op1 offset => e.set op0 (M.lw e.world (e.env op1) offset)
  | .store op0 op1 offset => { e with world := M.sw e.world (e.env op0) (e.env op1) offset }
  | .mult op0 op1 => { e with world := M.mult e.world (e.env op0) (e.env op1) }
  | .mflo op0 => e.set op0 (M.mflo e.world)
  | .ret _ | .branch _ | .beqz _ _ | .bnez _ _ | .memo _ | .mark _ => e

def evalItem (e : Values V W) : Item → Values V W
  | .tac x actual _ => evalTac M actual e x.node.tac
  | .spill _ _ | .load _ _ => e

end

end nehcpu.decaf
