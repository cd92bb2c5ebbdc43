-- The liveness analysis: `computeDefAndLiveUse` and `analyzeLiveness` of a block, and the loop
-- of `FlowGraph.analyzeLiveness` over the blocks of a graph.
import Mathlib.Data.Finset.Basic
import Nehcpu.Decaf.FlowGraph
import Nehcpu.Lib.Dataflow

namespace nehcpu.decaf

/-! ## computeDefAndLiveUse -/

/-- What `computeDefAndLiveUse` writes: the two sets of the block, `def` and `liveUse`, and
`lastVisitedBB` of the temps. -/
structure Marks where
  lastVisitedBB : Temp → Int
  defs : Finset Temp
  liveUse : Finset Temp

def Marks.use (bbNum : Nat) (m : Marks) (t : Temp) : Marks :=
  if m.lastVisitedBB t ≠ bbNum then
    { m with
      liveUse := insert t m.liveUse
      lastVisitedBB := Function.update m.lastVisitedBB t bbNum }
  else m

def Marks.define (bbNum : Nat) (m : Marks) (t : Temp) : Marks :=
  if m.lastVisitedBB t ≠ bbNum then
    { m with
      defs := insert t m.defs
      lastVisitedBB := Function.update m.lastVisitedBB t bbNum }
  else m

/-- The operand of a call without a result is null. -/
def Marks.defineIf (bbNum : Nat) (m : Marks) : Option Temp → Marks
  | none => m
  | some t => m.define bbNum t

/-- One turn of the loop of `computeDefAndLiveUse`. -/
def Marks.tac (bbNum : Nat) (m : Marks) : Tac → Marks
  | .binary _ op0 op1 op2 => ((m.use bbNum op1).use bbNum op2).define bbNum op0
  | .unary _ op0 op1 | .load op0 op1 _ => (m.use bbNum op1).define bbNum op0
  | .indirectCall op0 op1 => (m.use bbNum op1).defineIf bbNum op0
  | .directCall op0 _ | .ret op0 => m.defineIf bbNum op0
  | .loadVtbl op0 _ | .loadStrConst op0 _ | .loadImm4 op0 _ | .mflo op0 => m.define bbNum op0
  | .store op0 op1 _ | .mult op0 op1 => (m.use bbNum op0).use bbNum op1
  | .parm op0 => m.use bbNum op0
  | .branch _ | .beqz _ _ | .bnez _ _ | .memo _ | .mark _ => m

def Marks.useIf (bbNum : Nat) (m : Marks) : Option Temp → Marks
  | none => m
  | some t => m.use bbNum t

def computeDefAndLiveUse (lastVisitedBB : Temp → Int) (bb : BasicBlock) : Marks :=
  let m : Marks := bb.tacList.foldl (fun (m : Marks) n => m.tac bb.bbNum n.tac) ⟨lastVisitedBB, ∅, ∅⟩
  m.useIf bb.bbNum bb.var

/-! ## The sets of the blocks -/

/-- A block with the sets that the analysis keeps in it. -/
structure LiveBlock where
  bb : BasicBlock
  defs : Finset Temp
  liveUse : Finset Temp
  liveIn : Finset Temp
  liveOut : Finset Temp
deriving DecidableEq

/-- The first loop of `FlowGraph.analyzeLiveness`: each block finds the temps as the blocks
before it left them. -/
def computeAll (lastVisitedBB : Temp → Int) : List BasicBlock → List LiveBlock
  | [] => []
  | bb :: bbs =>
    let m := computeDefAndLiveUse lastVisitedBB bb
    ⟨bb, m.defs, m.liveUse, m.liveUse, ∅⟩ :: computeAll m.lastVisitedBB bbs

/-- One block in one turn of the fixpoint loop, and whether its `liveIn` changed. The sets
change in place, so a block that goes on to itself reads what it has just written. -/
def visit (bbs : List LiveBlock) (i : Nat) : Option (List LiveBlock × Bool) := do
  let b ← bbs[i]?
  let s0 ← bbs[b.bb.next.1]?
  let s1 ← bbs[b.bb.next.2]?
  let liveOut := (b.liveOut ∪ s0.liveIn ∪ s1.liveIn) \ b.defs
  let liveIn := b.liveIn ∪ liveOut
  let bbs := bbs.set i { b with liveIn := liveIn, liveOut := liveOut }
  let s0 ← bbs[b.bb.next.1]?
  let s1 ← bbs[b.bb.next.2]?
  let bbs := bbs.set i { b with liveIn := liveIn, liveOut := liveOut ∪ s0.liveIn ∪ s1.liveIn }
  some (bbs, liveIn ≠ b.liveIn)

/-- The first `n` blocks of one turn of the loop. -/
def sweep : Nat → List LiveBlock → Option (List LiveBlock × Bool)
  | 0, bbs => some (bbs, false)
  | n + 1, bbs => do
    let (bbs, changed) ← sweep n bbs
    let (bbs, changed') ← visit bbs n
    some (bbs, changed || changed')

/-! ## The sets of the instructions -/

/-- `remove (op0)`, which does nothing for a null operand. -/
def removeIf (live : Finset Temp) : Option Temp → Finset Temp
  | none => live
  | some t => live.erase t

/-- `if (var != null) tac.liveOut.add (var)` -/
def addIf (live : Finset Temp) : Option Temp → Finset Temp
  | none => live
  | some t => insert t live

/-- `tac.prev.liveOut`, from `tac.liveOut`. -/
def Tac.before (live : Finset Temp) : Tac → Finset Temp
  | .binary _ op0 op1 op2 => insert op2 (insert op1 (live.erase op0))
  | .unary _ op0 op1 | .load op0 op1 _ => insert op1 (live.erase op0)
  | .indirectCall op0 op1 => insert op1 (removeIf live op0)
  | .directCall op0 _ | .ret op0 => removeIf live op0
  | .loadVtbl op0 _ | .loadStrConst op0 _ | .loadImm4 op0 _ | .mflo op0 => live.erase op0
  | .store op0 op1 _ | .mult op0 op1 => insert op1 (insert op0 live)
  | .beqz op0 _ | .bnez op0 _ | .parm op0 => insert op0 live
  | .branch _ | .memo _ | .mark _ => live

/-- What is live in front of some instructions, when `live` is live behind them. -/
def through (live : Finset Temp) (tacs : List Node) : Finset Temp :=
  tacs.foldr (fun n live => n.tac.before live) live

/-- `tac.liveOut` of each instruction, when `last` is that of the last one. -/
def tacLiveOuts (last : Finset Temp) : List Node → List (Finset Temp)
  | [] => []
  | [_] => [last]
  | _ :: n :: rest =>
    let outs := tacLiveOuts last (n :: rest)
    n.tac.before (outs.headD last) :: outs

/-- `BasicBlock.analyzeLiveness`: `tac.liveOut` of each instruction of the block. -/
def LiveBlock.tacLiveOuts (b : LiveBlock) : List (Finset Temp) :=
  decaf.tacLiveOuts (addIf b.liveOut b.bb.var) b.bb.tacList

/-- `FlowGraph.analyzeLiveness`. A temp belongs to one function, so that no block has visited it
before: `lastVisitedBB` is -1. -/
def analyzeLiveness (fuel : Nat) (g : List BasicBlock) : Option (List LiveBlock) :=
  dataflow.loopWhile (sweep g.length) fuel (computeAll (fun _ => -1) g)

end nehcpu.decaf
