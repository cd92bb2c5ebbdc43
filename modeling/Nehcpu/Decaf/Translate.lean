-- `Translater.java`, `TransPass1.java` and `TransPass2.java`: the code of a tree that has been
-- checked.
import Mathlib.Data.List.Sort
import Nehcpu.Decaf.Arrays
import Nehcpu.Decaf.TypeCheck

namespace nehcpu.decaf

open command

/-! ## The instructions of the translater -/

def POINTER_SIZE : Nat := 4

/-- The intrinsics that array code does not call. -/
inductive Routine
  | LIB_DIV | LIB_REM | READ_LINE | READ_INT | STRING_EQUAL | PRINT_INT | PRINT_BOOL
deriving DecidableEq

def Routine.label : Routine → Label
  | .LIB_DIV => ⟨3⟩
  | .LIB_REM => ⟨4⟩
  | .READ_LINE => ⟨5⟩
  | .READ_INT => ⟨6⟩
  | .STRING_EQUAL => ⟨7⟩
  | .PRINT_INT => ⟨8⟩
  | .PRINT_BOOL => ⟨9⟩

/-- The first label behind those of the intrinsics. -/
def firstLabel : Nat := 10

def genBinary (opc : BinaryKind) (src1 src2 : Temp) : Trans Temp := do
  let dst ← createTempI4
  append (.binary opc dst src1 src2)
  pure dst

def genUnary (opc : UnaryKind) (src : Temp) : Trans Temp := do
  let dst ← createTempI4
  append (.unary opc dst src)
  pure dst

def genSub : Temp → Temp → Trans Temp := genBinary .sub

def genLAnd : Temp → Temp → Trans Temp := genBinary .land

def genLOr : Temp → Temp → Trans Temp := genBinary .lor

def genGtr : Temp → Temp → Trans Temp := genBinary .gtr

def genGeq : Temp → Temp → Trans Temp := genBinary .geq

def genEqu : Temp → Temp → Trans Temp := genBinary .equ

def genNeq : Temp → Temp → Trans Temp := genBinary .neq

def genLeq : Temp → Temp → Trans Temp := genBinary .leq

def genNeg : Temp → Trans Temp := genUnary .neg

def genLNot : Temp → Trans Temp := genUnary .lnot

def genAssign (dst src : Temp) : Trans Unit := append (.unary .assign dst src)

def genLoadVTable (vtbl : String) : Trans Temp := do
  let dst ← createTempI4
  append (.loadVtbl dst vtbl)
  pure dst

/-- The temp for the result of a call, which a call of a function without a result does not have. -/
def resultTemp (retType : Ty) : Trans (Option Temp) :=
  if retType = .VOID then pure none
  else do
    let dst ← createTempI4
    pure (some dst)

def genIndirectCall (func : Temp) (retType : Ty) : Trans (Option Temp) := do
  let dst ← resultTemp retType
  append (.indirectCall dst func)
  pure dst

def genDirectCall (func : Label) (retType : Ty) : Trans (Option Temp) := do
  let dst ← resultTemp retType
  append (.directCall dst func)
  pure dst

/-- `genIntrinsicCall`, where there is a result. -/
def genRoutineCall (intrn : Routine) : Trans Temp := do
  let dst ← createTempI4
  append (.directCall (some dst) intrn.label)
  pure dst

def genParm (parm : Temp) : Trans Unit := append (.parm parm)

def genMark (label : Label) : Trans Unit := append (.mark label)

def genBranch (label : Label) : Trans Unit := append (.branch label)

def genBeqz (cond : Temp) (label : Label) : Trans Unit := append (.beqz cond label)

def genBnez (cond : Temp) (label : Label) : Trans Unit := append (.bnez cond label)

def genReturn (src : Option Temp) : Trans Unit := append (.ret src)

/-- Stores of zeros into the fields of a new object. -/
def genClear (zero newObj : Temp) : List Nat → Trans Unit
  | [] => pure ()
  | i :: is => do
    genStore zero newObj (WORD_SIZE * (i + 1))
    genClear zero newObj is

/-- The code that `genNewForClass` makes, for a class of this size. -/
def genNewObject (label : Label) (objectSize : Int) (vtbl : String) : Trans Unit := do
  genMark label
  let size ← genLoadImm4 objectSize
  genParm size
  let newObj ← genIntrinsicCallI4 .ALLOCATE
  let time := objectSize / WORD_SIZE - 1
  let newObj ← (if time = 0 then pure newObj
    else do
      let zero ← genLoadImm4 0
      if time < 5 then
        genClear zero newObj (List.range time.toNat)
        pure newObj
      else
        let unit ← genLoadImm4 WORD_SIZE
        let loop ← createLabel
        let exit ← createLabel
        let newObj ← genAdd newObj size
        genMark loop
        genAssign newObj (← genSub newObj unit)
        genAssign size (← genSub size unit)
        genBeqz size exit
        genStore zero newObj 0
        genBranch loop
        genMark exit
        pure newObj)
  genStore (← genLoadVTable vtbl) newObj 0
  genReturn (some newObj)

def genInstanceof (inst : Temp) (vtbl : String) : Trans Temp := do
  let dst ← createTempI4
  let loop ← createLabel
  let exit ← createLabel
  let targetVp ← genLoadVTable vtbl
  let vp ← genLoad inst 0
  genMark loop
  append (.binary .equ dst targetVp vp)
  genBnez dst exit
  append (.load vp vp 0)
  genBnez vp loop
  append (.loadImm4 dst 0)
  genMark exit
  pure dst

def CLASS_CAST_ERROR1 : String := "Decaf runtime error: "

def CLASS_CAST_ERROR2 : String := " cannot be cast to "

def CLASS_CAST_ERROR3 : String := "\n"

def genPrintString (msg : Temp) : Trans Unit := do
  genParm msg
  genIntrinsicCall .PRINT_STRING

def genClassCast (val : Temp) (vtbl : String) : Trans Unit := do
  let loop ← createLabel
  let exit ← createLabel
  let cond ← createTempI4
  let targetVp ← genLoadVTable vtbl
  let vp ← genLoad val 0
  genMark loop
  append (.binary .equ cond targetVp vp)
  genBnez cond exit
  append (.load vp vp 0)
  genBnez vp loop
  genPrintString (← genLoadStrConst CLASS_CAST_ERROR1)
  genPrintString (← genLoad (← genLoad val 0) 4)
  genPrintString (← genLoadStrConst CLASS_CAST_ERROR2)
  genPrintString (← genLoad (← genLoadVTable vtbl) 4)
  genPrintString (← genLoadStrConst CLASS_CAST_ERROR3)
  genIntrinsicCall .HALT
  genMark exit

/-! ## What the passes write -/

structure VTable where
  name : String
  className : String
  entries : List (Option Label)
  parent : Option ClassId

/-- A function of the output: its label, where its formals stand and its code. -/
structure Listing where
  label : Label
  paramMemo : List (Temp × Int)
  code : List Tac

/-- The translater, with what the passes write into the symbols. The location of a variable tells it
from the others. -/
structure Output where
  tr : Translater
  numNonStaticFunc : ClassId → Int
  numVar : ClassId → Int
  size : ClassId → Int
  order : Symbol → Int
  offset : Symbol → Int
  temp : Nat → Option Temp
  functy : Function → Option Label
  vtable : ClassId → Option VTable
  newFuncLabel : ClassId → Option Label
  vtables : List ClassId
  funcs : List Listing

def Output.start : Output where
  tr := ⟨0, firstLabel, []⟩
  numNonStaticFunc _ := -1
  numVar _ := -1
  size _ := 0
  order _ := 0
  offset _ := 0
  temp _ := none
  functy _ := none
  vtable _ := none
  newFuncLabel _ := none
  vtables := []
  funcs := []

abbrev Pass := Cmd Output Fault

/-- Code for the function that is open. -/
def emit {α : Type} (c : Trans α) : Pass α := fun s =>
  .ok (c s.tr).1 { s with tr := (c s.tr).2 }

/-- The value of an expression as an operand. -/
def operand : Option Temp → Pass Temp
  | some t => pure t
  | none => .throw .nullOperand

/-- What is read through a reference. -/
def deref {α : Type} : Option α → Pass α
  | some a => pure a
  | none => .throw .nullPointer

/-- A function is opened with an empty list. -/
def beginFunc : Pass Unit := .modify fun s => { s with tr := { s.tr with code := [] } }

def endFunc (label : Label) (paramMemo : List (Temp × Int)) : Pass Unit :=
  .modify fun s => { s with funcs := s.funcs ++ [⟨label, paramMemo, s.tr.code⟩] }

namespace TransPass1

/-! ## The first pass -/

/-- One symbol in the loop of `resolveFieldOrder`. `ps` is the parent with its ancestors. -/
def orderSymbol (r : BuildSym.Result) (c : ClassId) (ps : List ClassId) (sym : Symbol) :
    Pass Unit := .modify fun s =>
  match sym with
  | .var _ => { s with
      order := Function.update s.order sym (s.numVar c)
      numVar := Function.update s.numVar c (s.numVar c + 1)
      size := Function.update s.size c (s.size c + WORD_SIZE) }
  | .func f =>
    if f.statik then s
    else
      match lookupVisible r.scopes f.name ps with
      | none => { s with
          order := Function.update s.order sym (s.numNonStaticFunc c)
          numNonStaticFunc :=
            Function.update s.numNonStaticFunc c (s.numNonStaticFunc c + 1) }
      | some t => { s with order := Function.update s.order sym (s.order t) }

/-- Where the numbers of a class start: behind those of the parent. -/
def inherit (c : ClassId) (parent : Option ClassId) : Pass Unit := .modify fun s => { s with
  numNonStaticFunc :=
    Function.update s.numNonStaticFunc c (parent.elim 0 s.numNonStaticFunc)
  numVar := Function.update s.numVar c (parent.elim 0 s.numVar)
  size := Function.update s.size c (parent.elim POINTER_SIZE s.size) }

/-- `resolveFieldOrder` of a class with its ancestors. -/
def resolveFieldOrder (r : BuildSym.Result) : List ClassId → Pass Unit
  | [] => pure ()
  | c :: ps => do
    let s ← Cmd.get
    if s.numNonStaticFunc c ≥ 0 ∧ s.numVar c ≥ 0 then pure ()
    else do
      (if (r.parentName c).isSome then do
        let p ← deref ps.head?
        resolveFieldOrder r ps
        inherit c (some p)
      else inherit c none)
      .each (orderSymbol r c ps) (r.scopes c)

/-- `createFuncty` -/
def createFuncty (r : BuildSym.Result) (func : Function) : Pass Unit := do
  (if r.main = some func then pure ()
  else do
    let _ ← deref func.definedIn)
  let label ← emit createLabel
  .modify fun s => { s with functy := Function.update s.functy func (some label) }

/-- What a formal gets: its place among the arguments, a temp and the offset. -/
def placeFormal (v : Variable) (order : Nat) : Pass Unit := do
  let t ← emit createTempI4
  .modify fun s => { s with
    order := Function.update s.order (.var v) order
    temp := Function.update s.temp v.loc (some t)
    offset := Function.update s.offset (.var v) (WORD_SIZE + order * WORD_SIZE) }

def placeFormals : List (VarDef Checked) → Nat → Pass Unit
  | [], _ => pure ()
  | d :: ds, order => do
    placeFormal d.symbol order
    placeFormals ds (order + 1)

def visitMethodDef (r : BuildSym.Result) (m : MethodDef Checked) : Pass Unit := do
  let func := m.symbol
  (if func.statik then pure ()
  else .modify fun s => { s with
    offset := Function.update s.offset (.func func)
      (2 * POINTER_SIZE + s.order (.func func) * POINTER_SIZE) })
  createFuncty r func
  if func.statik then placeFormals m.formals 0
  else do
    let v ← deref (m.associatedScope.find? fun v => v.name = "this")
    placeFormal v 0
    placeFormals m.formals 1

def visitField (r : BuildSym.Result) : Field Checked → Pass Unit
  | .var _ => pure ()
  | .method m => visitMethodDef r m

def varOf : Field Checked → Option Variable
  | .var d => some d.symbol
  | .method _ => none

/-- The offsets of the sorted variables of a class. -/
def placeVars : List Variable → Int → Pass Unit
  | [], _ => pure ()
  | v :: vs, offset => do
    .modify fun s => { s with offset := Function.update s.offset (.var v) offset }
    placeVars vs (offset + WORD_SIZE)

def visitClassDef (r : BuildSym.Result) (c : ClassId) (cd : ClassDef Checked) : Pass Unit := do
  resolveFieldOrder r (r.chain c)
  .each (visitField r) cd.fields
  let s ← Cmd.get
  let vars := (cd.fields.filterMap varOf).insertionSort
    fun v w => s.order (.var v) ≤ s.order (.var w)
  placeVars vars ((r.chain c).tail.head?.elim POINTER_SIZE s.size)

/-- `fillVTableEntries`, for the symbols of a class behind those of its ancestors. -/
def fillVTableEntries : List Symbol → List (Option Label) → Pass (List (Option Label))
  | [], entries => pure entries
  | .var _ :: syms, entries => fillVTableEntries syms entries
  | .func f :: syms, entries =>
    if f.statik then fillVTableEntries syms entries
    else do
      let s ← Cmd.get
      let label ← deref (s.functy f)
      let i := s.order (.func f)
      if 0 ≤ i ∧ i < entries.length then
        fillVTableEntries syms (entries.set i.toNat (some label))
      else .throw .indexOutOfBounds

def createVTable (r : BuildSym.Result) (c : ClassId) (cd : ClassDef Checked) : Pass Unit := do
  let s ← Cmd.get
  if (s.vtable c).isSome then pure ()
  else if s.numNonStaticFunc c < 0 then .throw .negativeArraySize
  else do
    let entries ← fillVTableEntries ((r.chain c).reverse.flatMap r.scopes)
      (List.replicate (s.numNonStaticFunc c).toNat none)
    .modify fun s => { s with
      vtable := Function.update s.vtable c (some ⟨"_" ++ cd.name, cd.name, entries, none⟩)
      vtables := s.vtables ++ [c] }

def genNewForClass (c : ClassId) : Pass Unit := do
  beginFunc
  let label ← emit createLabel
  .modify fun s => { s with newFuncLabel := Function.update s.newFuncLabel c (some label) }
  let s ← Cmd.get
  match s.vtable c with
  | none => .throw .nullOperand
  | some vtbl => do
    emit (genNewObject label (s.size c) vtbl.name)
    endFunc label []

def linkVTable (r : BuildSym.Result) (c : ClassId) (cd : ClassDef Checked) : Pass Unit :=
  if cd.parent.isNone then pure ()
  else do
    let s ← Cmd.get
    let vtbl ← deref (s.vtable c)
    let p ← deref (BuildSym.getParent r.globals r.parentName c)
    .modify fun s => { s with
      vtable := Function.update s.vtable c
        (some { vtbl with parent := (s.vtable p).map fun _ => p }) }

/-- A loop over the classes with their numbers. -/
def visitClasses (visit : ClassId → ClassDef Checked → Pass Unit) :
    List (ClassDef Checked) → ClassId → Pass Unit
  | [], _ => pure ()
  | cd :: cds, c => do
    visit c cd
    visitClasses visit cds (c + 1)

def createClass (r : BuildSym.Result) (c : ClassId) (cd : ClassDef Checked) : Pass Unit := do
  createVTable r c cd
  genNewForClass c

def visitTopLevel (r : BuildSym.Result) (cds : List (ClassDef Checked)) : Pass Unit := do
  visitClasses (visitClassDef r) cds 0
  visitClasses (createClass r) cds 0
  visitClasses (linkVTable r) cds 0

end TransPass1

namespace TransPass2

/-! ## The second pass -/

/-- `currentThis` and the labels behind the open loops, and the ancestors of the classes. -/
structure Context where
  chain : ClassId → List ClassId
  currentThis : Option Temp
  loopExits : List Label

/-- The value of an lvalue, with those of its owner or its array and of its index. -/
structure Place where
  val : Option Temp
  base : Option Temp
  index : Option Temp

/-- `symbol.getTemp()` -/
def symbolTemp (v : Option Variable) : Pass (Option Temp) := do
  let v ← deref v
  let s ← Cmd.get
  pure (s.temp v.loc)

def genParms : List (Option Temp) → Pass Unit
  | [] => pure ()
  | v :: vs => do
    let t ← operand v
    emit (genParm t)
    genParms vs

/-- Two operands for an instruction with a result. -/
def onBoth (gen : Temp → Temp → Trans Temp) (left right : Option Temp) : Pass (Option Temp) := do
  let l ← operand left
  let r ← operand right
  let t ← emit (gen l r)
  pure (some t)

def onOne (gen : Temp → Trans Temp) (val : Option Temp) : Pass (Option Temp) := do
  let v ← operand val
  let t ← emit (gen v)
  pure (some t)

/-- DIV and MOD, which the library computes. -/
def callRoutine (intrn : Routine) (left right : Temp) : Trans Temp := do
  genParm left
  genParm right
  genRoutineCall intrn

def genStringEqual (tag : BinaryTag) (left right : Temp) : Trans Temp := do
  let t ← callRoutine .STRING_EQUAL left right
  if tag = .NE then genLNot t else pure t

def genEquNeq (tag : BinaryTag) (leftType rightType : ExprType) (left right : Option Temp) :
    Pass (Option Temp) :=
  if leftType = .ty .STRING ∨ rightType = .ty .STRING then onBoth (genStringEqual tag) left right
  else if tag = .EQ then onBoth genEqu left right
  else onBoth genNeq left right

/-- The code behind the two sides of a binary expression. -/
def genBinaryTag (tag : BinaryTag) (leftType rightType : ExprType) (left right : Option Temp) :
    Pass (Option Temp) :=
  match tag with
  | .PLUS => onBoth genAdd left right
  | .MINUS => onBoth genSub left right
  | .MUL => onBoth genMul left right
  | .DIV => onBoth (callRoutine .LIB_DIV) left right
  | .MOD => onBoth (callRoutine .LIB_REM) left right
  | .AND => onBoth genLAnd left right
  | .OR => onBoth genLOr left right
  | .LT => onBoth genLes left right
  | .LE => onBoth genLeq left right
  | .GT => onBoth genGtr left right
  | .GE => onBoth genGeq left right
  | .EQ | .NE => genEquNeq tag leftType rightType left right

def genLiteral : LiteralValue → Trans Temp
  | .int value => genLoadImm4 value
  | .bool value => genLoadImm4 (if value then 1 else 0)
  | .string value => genLoadStrConst value

mutual

def visitLValue (k : Context) : LValue Note → Pass Place
  | .ident node _ =>
    match node.lvKind with
    | none => .throw .nullPointer
    | some .MEMBER_VAR => .throw .nullPointer
    | some _ => do
      let val ← symbolTemp node.varSymbol
      pure ⟨val, none, none⟩
  | .select node owner _ =>
    match node.lvKind with
    | none => .throw .nullPointer
    | some .MEMBER_VAR => do
      let owner ← visitExpr k owner
      let v ← deref node.varSymbol
      let s ← Cmd.get
      let val ← onOne (fun base => genLoad base (s.offset (.var v))) owner
      pure ⟨val, owner, none⟩
    | some _ => do
      let val ← symbolTemp node.varSymbol
      pure ⟨val, none, none⟩
  | .indexed _ array index => do
    let array ← visitExpr k array
    let index ← visitExpr k index
    let val ← onBoth decaf.visitIndexed array index
    pure ⟨val, array, index⟩

def visitCall (k : Context) : Call Note → Pass (Option Temp)
  | .call node _ actuals =>
    if node.isArrayLength then .throw .nullPointer
    else do
      let vals ← visitExprs k actuals
      genParms vals
      let f ← deref node.funcSymbol
      let s ← Cmd.get
      let label ← deref (s.functy f)
      emit (genDirectCall label f.type.returnType)
  | .callOn node receiver _ actuals =>
    if node.isArrayLength then do
      let receiver ← visitExpr k receiver
      onOne (fun base => genLoad base (-WORD_SIZE)) receiver
    else do
      let receiver ← visitExpr k receiver
      let vals ← visitExprs k actuals
      genParms (receiver :: vals)
      let base ← operand receiver
      let vt ← emit (genLoad base 0)
      let f ← deref node.funcSymbol
      let s ← Cmd.get
      let func ← emit (genLoad vt (s.offset (.func f)))
      emit (genIndirectCall func f.type.returnType)

/-- The visitors of the expressions, with the field `val`. -/
def visitExpr (k : Context) : Expr Note → Pass (Option Temp)
  | .lvalue left => do
    let place ← visitLValue k left
    pure place.val
  | .call c => visitCall k c
  | .literal _ value => do
    let t ← emit (genLiteral value)
    pure (some t)
  | .null _ => do
    let t ← emit (genLoadImm4 0)
    pure (some t)
  | .readInt _ => do
    let t ← emit (genRoutineCall .READ_INT)
    pure (some t)
  | .readLine _ => do
    let t ← emit (genRoutineCall .READ_LINE)
    pure (some t)
  | .this _ => pure k.currentThis
  | .unary _ tag expr => do
    let val ← visitExpr k expr
    match tag with
    | .NEG => onOne genNeg val
    | .NOT => onOne genLNot val
  | .binary _ tag left right => do
    let l ← visitExpr k left
    let r ← visitExpr k right
    genBinaryTag tag left.type right.type l r
  | .newClass node _ => do
    let c ← deref node.classSymbol
    let s ← Cmd.get
    match s.newFuncLabel c with
    | none => .throw .nullOperand
    | some label => emit (genDirectCall label .INT)
  | .newArray _ _ length => do
    let val ← visitExpr k length
    onOne genNewArray val
  | .typeTest node inst _ => do
    let val ← visitExpr k inst
    let c ← deref node.classSymbol
    let s ← Cmd.get
    match s.vtable c with
    | none => .throw .nullOperand
    | some vtbl => onOne (fun v => genInstanceof v vtbl.name) val
  | .typeCast node _ expr => do
    let val ← visitExpr k expr
    let c ← deref node.classSymbol
    let compatible ← orThrow (expr.type.compatible k.chain (.ty (.cls c)))
    if compatible then pure val
    else do
      let s ← Cmd.get
      match s.vtable c with
      | none => .throw .nullOperand
      | some vtbl => do
        let v ← operand val
        emit (genClassCast v vtbl.name)
        pure val

def visitExprs (k : Context) : Exprs Note → Pass (List (Option Temp))
  | .nil => pure []
  | .cons expr exprs => do
    let val ← visitExpr k expr
    let vals ← visitExprs k exprs
    pure (val :: vals)

end

/-! ## Statements -/

def visitAssign (k : Context) (left : LValue Note) (expr : Expr Note) : Pass Unit := do
  let place ← visitLValue k left
  let val ← visitExpr k expr
  match left.node.lvKind with
  | none => .throw .nullPointer
  | some .ARRAY_ELEMENT => do
    let index ← operand place.index
    let array ← operand place.base
    let base ← emit (genElement array index)
    let src ← operand val
    emit (genStore src base 0)
  | some .MEMBER_VAR => do
    let src ← operand val
    let base ← operand place.base
    let v ← deref left.node.varSymbol
    let s ← Cmd.get
    emit (genStore src base (s.offset (.var v)))
  | some _ => do
    let dst ← symbolTemp left.node.varSymbol
    let dst ← operand dst
    let src ← operand val
    emit (genAssign dst src)

def visitSimple (k : Context) : Simple Note → Pass Unit
  | .assign left expr => visitAssign k left expr
  | .exec c => do
    let _ ← visitCall k c

def visitOption {α : Type} (visit : α → Pass Unit) : Option α → Pass Unit
  | none => pure ()
  | some x => visit x

/-- The intrinsic that prints a value of this type. -/
def genPrint (t : ExprType) : Trans Unit :=
  if t = .ty .BOOL then append (.directCall none Routine.PRINT_BOOL.label)
  else if t = .ty .INT then append (.directCall none Routine.PRINT_INT.label)
  else if t = .ty .STRING then genIntrinsicCall .PRINT_STRING
  else pure ()

def visitPrint (k : Context) : Exprs Note → Pass Unit
  | .nil => pure ()
  | .cons expr exprs => do
    let val ← visitExpr k expr
    let t ← operand val
    emit (genParm t)
    emit (genPrint expr.type)
    visitPrint k exprs

def visitReturn (k : Context) : Option (Expr Note) → Pass Unit
  | none => emit (genReturn none)
  | some expr => do
    let val ← visitExpr k expr
    let t ← operand val
    emit (genReturn (some t))

/-- A condition, with the jump where it does not hold. -/
def visitCondition (k : Context) (condition : Expr Note) : Pass Label := do
  let val ← visitExpr k condition
  let exit ← emit createLabel
  let t ← operand val
  emit (genBeqz t exit)
  pure exit

def visitVarDef (d : VarDef Checked) : Pass Unit := do
  let kind ← deref d.symbol.definedIn
  if kind = .LOCAL then do
    let t ← emit createTempI4
    .modify fun s => { s with temp := Function.update s.temp d.symbol.loc (some t) }
  else pure ()

mutual

def visitStmt (k : Context) : Stmt Checked → Pass Unit
  | .varDef d => visitVarDef d
  | .skip => pure ()
  | .simple s => visitSimple k s
  | .block _ stmts => visitStmts k stmts
  | .whileLoop condition loopBody => do
    let loop ← emit createLabel
    emit (genMark loop)
    let exit ← visitCondition k condition
    visitStmt { k with loopExits := exit :: k.loopExits } loopBody
    emit (genBranch loop)
    emit (genMark exit)
  | .forLoop init condition update loopBody => do
    visitOption (visitSimple k) init
    let cond ← emit createLabel
    let loop ← emit createLabel
    emit (genBranch cond)
    emit (genMark loop)
    visitOption (visitSimple k) update
    emit (genMark cond)
    let exit ← visitCondition k condition
    visitStmt { k with loopExits := exit :: k.loopExits } loopBody
    emit (genBranch loop)
    emit (genMark exit)
  | .ifThen condition trueBranch => do
    let exit ← visitCondition k condition
    visitStmt k trueBranch
    emit (genMark exit)
  | .ifElse condition trueBranch falseBranch => do
    let falseLabel ← visitCondition k condition
    visitStmt k trueBranch
    let exit ← emit createLabel
    emit (genBranch exit)
    emit (genMark falseLabel)
    visitStmt k falseBranch
    emit (genMark exit)
  | .breakStmt =>
    match k.loopExits with
    | [] => .throw .emptyStack
    | exit :: _ => emit (genBranch exit)
  | .print exprs => visitPrint k exprs
  | .ret expr => visitReturn k expr

def visitStmts (k : Context) : Stmts Checked → Pass Unit
  | .nil => pure ()
  | .cons stmt stmts => do
    visitStmt k stmt
    visitStmts k stmts

end

/-! ## Functions -/

/-- `memoOf`: the temps of the formals with their offsets. -/
def memoOf : List Variable → Pass (List (Temp × Int))
  | [] => pure []
  | v :: vs => do
    let s ← Cmd.get
    let t ← deref (s.temp v.loc)
    let memo ← memoOf vs
    pure ((t, s.offset (.var v)) :: memo)

def visitMethodDef (chain : ClassId → List ClassId) (m : MethodDef Checked) : Pass Unit := do
  let currentThis ← (if m.statik then pure none
    else do
      let v ← deref (m.associatedScope.find? fun v => v.name = "this")
      let s ← Cmd.get
      pure (s.temp v.loc))
  let s ← Cmd.get
  let label ← deref (s.functy m.symbol)
  beginFunc
  let paramMemo ← memoOf m.associatedScope
  emit (genMark label)
  visitStmts ⟨chain, currentThis, []⟩ m.body
  endFunc label paramMemo

/-- A field that is a variable is not a local one, and nothing is done. -/
def visitField (chain : ClassId → List ClassId) : Field Checked → Pass Unit
  | .var d => visitVarDef d
  | .method m => visitMethodDef chain m

def visitTopLevel (chain : ClassId → List ClassId) (cds : List (ClassDef Checked)) : Pass Unit :=
  .each (fun cd => .each (visitField chain) cd.fields) cds

end TransPass2

/-- `translate` -/
def translate (r : BuildSym.Result) (cds : List (ClassDef Checked)) : Pass Unit := do
  TransPass1.visitTopLevel r cds
  TransPass2.visitTopLevel r.chain cds

/-! ## The driver -/

/-- What `compile` comes to: the errors that it prints, or the code. -/
inductive Compiled
  | rejected (errors : List DecafError)
  | translated (output : Output)

/-- `compile` up to the code. Behind each pass it stops where there are errors. -/
def compile (program : Program) : Except Fault Compiled :=
  match BuildSym.visitTopLevel program with
  | .error e => .error e
  | .ok r =>
    if r.errors ≠ [] then .ok (.rejected r.errors)
    else
      match TypeCheck.visitTopLevel r [] with
      | .fail e _ => .error e
      | .stop => .error .stackOverflow
      | .ok cds errors =>
        if errors ≠ [] then .ok (.rejected errors)
        else
          match translate r cds Output.start with
          | .fail e _ => .error e
          | .stop => .error .stackOverflow
          | .ok _ s => .ok (.translated s)

end nehcpu.decaf
