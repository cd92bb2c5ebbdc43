-- `FlowGraph.java`: the basic blocks of a function, and how a run goes through them.
import Nehcpu.Decaf.Tac

namespace nehcpu.decaf

/-! ## Cutting the list -/

/-- `deleteMemo`: the MEMOs are unlinked. -/
def deleteMemo (nodes : List Node) : List Node := nodes.filter fun n => !n.tac.isMemo

/-- `markBasicBlocks`: every instruction gets the number of its block, and a label that
nothing jumps to is unlinked. The loop starts with `index = -1` and `atStart = false`. -/
def markBasicBlocks (target : Label → Bool) (index : Int) (atStart : Bool) :
    List Node → List Node
  | [] => []
  | n :: rest =>
    match n.tac with
    | .ret _ | .branch _ | .beqz _ _ | .bnez _ _ =>
      { n with bbNum := index } :: markBasicBlocks target (index + 1) true rest
    | .mark l =>
      if !target l then markBasicBlocks target index atStart rest
      else if !atStart then
        { n with bbNum := index + 1 } :: markBasicBlocks target (index + 1) true rest
      else { n with bbNum := index } :: markBasicBlocks target index atStart rest
    | _ => { n with bbNum := index } :: markBasicBlocks target index false rest

inductive EndKind
  | BY_BRANCH | BY_BEQZ | BY_BNEZ | BY_RETURN
deriving DecidableEq

/-- A basic block. The source keeps the kind of the jump at its end and the temp that it
reads; `ender` adds where the RETURN, BEQZ or BNEZ stood, so that a run can name it. -/
structure BasicBlock where
  bbNum : Nat
  endKind : EndKind
  tacList : List Node
  var : Option Temp
  next : Nat × Nat
  ender : Option Nat
  inDegree : Nat
  cancelled : Bool
deriving DecidableEq

/-- `new BasicBlock()`, with a number and its instructions. -/
def newBlock (bbNum : Nat) (tacList : List Node) : BasicBlock where
  bbNum := bbNum
  tacList := tacList
  endKind := .BY_BRANCH
  var := none
  next := (0, 0)
  ender := none
  inDegree := 0
  cancelled := false

/-- `label.where.bbNum`. There is no such number when the label is not marked. -/
def whereBBNum (nodes : List Node) (l : Label) : Option Nat :=
  (nodes.find? fun n => n.tac.marked? = some l).map fun n => n.bbNum.toNat

/-- `nextStart.bbNum` -/
def nextBBNum (nextStart : List Node) : Option Nat :=
  nextStart.head?.map fun n => n.bbNum.toNat

/-- What `end` decides: how the block ends, and what is left of its instructions. -/
def endBlock (nodes : List Node) (bbNum : Nat) (tacs nextStart : List Node) :
    Option BasicBlock :=
  match tacs.getLast? with
  | none => some { newBlock bbNum [] with endKind := .BY_RETURN }
  | some last =>
    match last.tac with
    | .ret op0 =>
      some { newBlock bbNum tacs.dropLast with
        endKind := .BY_RETURN, var := op0, ender := some last.pos }
    | .branch l => do
      let b ← whereBBNum nodes l
      some { newBlock bbNum tacs.dropLast with endKind := .BY_BRANCH, next := (b, b) }
    | .beqz op0 l => do
      let b ← whereBBNum nodes l
      let b' ← nextBBNum nextStart
      some { newBlock bbNum tacs.dropLast with
        endKind := .BY_BEQZ, var := some op0, next := (b, b'), ender := some last.pos }
    | .bnez op0 l => do
      let b ← whereBBNum nodes l
      let b' ← nextBBNum nextStart
      some { newBlock bbNum tacs.dropLast with
        endKind := .BY_BNEZ, var := some op0, next := (b, b'), ender := some last.pos }
    | _ =>
      match nextBBNum nextStart with
      | none => some { newBlock bbNum tacs with endKind := .BY_RETURN }
      | some b => some { newBlock bbNum tacs with endKind := .BY_BRANCH, next := (b, b) }

/-- The instructions of the block that `start` opens: those behind its labels with the
number of the first of them. -/
def blockTacs (start : List Node) : List Node :=
  match start.dropWhile (·.tac.isMark) with
  | [] => []
  | n :: rest => n :: rest.takeWhile (·.bbNum = n.bbNum)

def nextStart (start : List Node) : List Node :=
  match start.dropWhile (·.tac.isMark) with
  | [] => []
  | n :: rest => rest.dropWhile (·.bbNum = n.bbNum)

theorem nextStart_length_lt (n : Node) (start : List Node) :
    (nextStart (n :: start)).length < (n :: start).length := by
  unfold nextStart
  have h := (List.dropWhile_sublist (l := n :: start) (·.tac.isMark)).length_le
  split
  · simp
  · next m rest heq =>
    rw [heq] at h
    have h' := (List.dropWhile_sublist (l := rest) (·.bbNum = m.bbNum)).length_le
    simp only [List.length_cons] at h ⊢
    omega

/-- The blocks from `start` on, one for each turn of the loop. -/
def gatherFrom (nodes : List Node) : List Node → Option (List BasicBlock)
  | [] => some []
  | n :: start => do
    let bb ← endBlock nodes n.bbNum.toNat (blockTacs (n :: start)) (nextStart (n :: start))
    let bbs ← gatherFrom nodes (nextStart (n :: start))
    some (bb :: bbs)
termination_by start => start.length
decreasing_by exact nextStart_length_lt n start

/-- `gatherBasicBlocks`: what stands before the first block is skipped. -/
def gatherBasicBlocks (nodes : List Node) : Option (List BasicBlock) :=
  gatherFrom nodes (nodes.dropWhile (·.bbNum < 0))

/-! ## simplify -/

/-- The numbers of the blocks that the counting loop visits for one block. -/
def BasicBlock.edges (bb : BasicBlock) : List Nat :=
  match bb.endKind with
  | .BY_BEQZ | .BY_BNEZ => [bb.next.2, bb.next.1]
  | .BY_BRANCH => [bb.next.1]
  | .BY_RETURN => []

/-- `getBlock(0).inDegree = 1`, and one more for each edge. -/
def countInDegrees (bbs : List BasicBlock) : List BasicBlock :=
  let edges := bbs.flatMap BasicBlock.edges
  bbs.mapIdx fun i bb => { bb with inDegree := (if i = 0 then 1 else 0) + edges.count i }

/-- A block that nothing leads to, or that only goes on to another one. -/
def BasicBlock.cancel (bb : BasicBlock) : BasicBlock :=
  if bb.inDegree ≤ 0 ∨ (bb.endKind = .BY_BRANCH ∧ bb.tacList = []) then
    { bb with cancelled := true }
  else bb

/-- `while (trace.cancelled) trace = getBlock(trace.next[0])`. The loop need not end: the
fuel bounds its turns. -/
def trace (bbs : List BasicBlock) : Nat → Nat → Option BasicBlock
  | 0, _ => none
  | fuel + 1, i => do
    let bb ← bbs[i]?
    if bb.cancelled then trace bbs fuel bb.next.1 else some bb

/-- The edges of a block that is kept, led past the blocks that are not. -/
def redirect (bbs : List BasicBlock) (fuel : Nat) (bb : BasicBlock) : Option BasicBlock :=
  if bb.cancelled ∨ bb.endKind = .BY_RETURN then some bb
  else do
    let to0 ← trace bbs fuel bb.next.1
    if bb.endKind = .BY_BEQZ ∨ bb.endKind = .BY_BNEZ then
      let to1 ← trace bbs fuel bb.next.2
      some { bb with
        next := (to0.bbNum, to1.bbNum)
        endKind := if to0.bbNum = to1.bbNum then .BY_BRANCH else bb.endKind }
    else some { bb with next := (to0.bbNum, to0.bbNum) }

/-- `newBBNum`: the place of each block that is kept among those that are. -/
def newBBNum (bbs : List BasicBlock) (i : Nat) : Option Nat := do
  let bb ← bbs[i]?
  if bb.cancelled then none
  else some ((bbs.take i).countP fun bb => !bb.cancelled)

def renumber (bbs : List BasicBlock) (bb : BasicBlock) : Option BasicBlock := do
  let bbNum ← newBBNum bbs bb.bbNum
  if bb.endKind = .BY_RETURN then some { bb with bbNum := bbNum }
  else do
    let to0 ← newBBNum bbs bb.next.1
    let to1 ← newBBNum bbs bb.next.2
    some { bb with bbNum := bbNum, next := (to0, to1) }

/-- `simplify`, with the fuel for each of its inner loops. -/
def simplify (fuel : Nat) (bbs : List BasicBlock) : Option (List BasicBlock) := do
  let bbs := (countInDegrees bbs).map BasicBlock.cancel
  let bbs ← bbs.mapM (redirect bbs fuel)
  (bbs.filter fun bb => !bb.cancelled).mapM (renumber bbs)

/-! ## The graph of a function -/

/-- What stands in the list of the function once its blocks are marked. -/
def Functy.marked (f : Functy) : List Node :=
  markBasicBlocks f.target (-1) false (deleteMemo f.nodes)

/-- `new FlowGraph(func)`, up to the liveness analysis, which leaves the blocks alone. -/
def flowGraph (fuel : Nat) (f : Functy) : Option (List BasicBlock) :=
  gatherBasicBlocks f.marked >>= simplify fuel

/-! ## Running the graph -/

/-- Where a run of the graph stands: what is left of a block, `none` once the function has
returned, and what it has passed. -/
structure Spot where
  here : Option (BasicBlock × List Node)
  seen : List Visit

/-- `emitTrace` of a block: its instructions, and then the code for its end. -/
def enter (g : List BasicBlock) (i : Nat) (seen : List Visit) : Option Spot :=
  g[i]?.map fun bb => ⟨some (bb, bb.tacList), seen⟩

/-- One step through the graph. A test whose two ways became one is still passed. -/
def stepGraph (g : List BasicBlock) (isZero : List Visit → Bool) : Spot → Option Spot
  | ⟨none, _⟩ => none
  | ⟨some (bb, n :: rest), seen⟩ => some ⟨some (bb, rest), .tac n.pos :: seen⟩
  | ⟨some (bb, []), seen⟩ =>
    match bb.endKind with
    | .BY_RETURN => some ⟨none, (match bb.ender with | some p => .tac p | none => .off) :: seen⟩
    | .BY_BRANCH => enter g bb.next.1 ((bb.ender.map Visit.tac).toList ++ seen)
    | .BY_BEQZ =>
      let seen := (bb.ender.map Visit.tac).toList ++ seen
      enter g (if isZero seen then bb.next.1 else bb.next.2) seen
    | .BY_BNEZ =>
      let seen := (bb.ender.map Visit.tac).toList ++ seen
      enter g (if isZero seen then bb.next.2 else bb.next.1) seen

end nehcpu.decaf
