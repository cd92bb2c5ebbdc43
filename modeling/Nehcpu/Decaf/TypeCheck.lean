-- `TypeCheck.java`: the visitors write types, symbols and kinds of variables into the tree, and
-- issue errors.
import Nehcpu.Decaf.BuildSym

namespace nehcpu.decaf

open command

/-- `LValue.Kind` -/
inductive LvKind
  | LOCAL_VAR | PARAM_VAR | MEMBER_VAR | ARRAY_ELEMENT
deriving DecidableEq

/-- The fields of an expression: the location from the parser, and what the checker writes. Nobody
reads the type of an expression that was not visited. -/
structure Note where
  loc : Nat
  type : ExprType
  usedForRef : Bool
  isClass : Bool
  lvKind : Option LvKind
  varSymbol : Option Variable
  funcSymbol : Option Function
  classSymbol : Option ClassId
  isArrayLength : Bool

/-- As the parser leaves the fields, but for the location. -/
def Note.fresh (loc : Nat) : Note :=
  ⟨loc, .ty .ERROR, false, false, none, none, none, none, false⟩

/-- As `TypeCheck` leaves a tree. -/
abbrev Checked : Phase := ⟨Note, List Variable, Variable, Function⟩

def LValue.node {A : Type} : LValue A → A
  | .ident node _ | .select node _ _ | .indexed node _ _ => node

def Call.node {A : Type} : Call A → A
  | .call node _ _ | .callOn node _ _ _ => node

def Expr.node {A : Type} : Expr A → A
  | .lvalue left => left.node
  | .call c => c.node
  | .literal node _ | .null node | .readInt node | .readLine node | .this node
  | .unary node _ _ | .binary node _ _ _ | .newClass node _ | .newArray node _ _
  | .typeTest node _ _ | .typeCast node _ _ => node

def Expr.type (e : Expr Note) : ExprType := e.node.type

def LValue.type (left : LValue Note) : ExprType := left.node.type

def Exprs.toList {A : Type} : Exprs A → List (Expr A)
  | .nil => []
  | .cons e es => e :: es.toList

section

variable {A B : Type} (f : A → B)

mutual

def LValue.map : LValue A → LValue B
  | .ident node name => .ident (f node) name
  | .select node owner name => .select (f node) owner.map name
  | .indexed node array index => .indexed (f node) array.map index.map

def Call.map : Call A → Call B
  | .call node method actuals => .call (f node) method actuals.map
  | .callOn node receiver method actuals => .callOn (f node) receiver.map method actuals.map

def Expr.map : Expr A → Expr B
  | .lvalue left => .lvalue left.map
  | .call c => .call c.map
  | .literal node value => .literal (f node) value
  | .null node => .null (f node)
  | .readInt node => .readInt (f node)
  | .readLine node => .readLine (f node)
  | .this node => .this (f node)
  | .unary node tag expr => .unary (f node) tag expr.map
  | .binary node tag left right => .binary (f node) tag left.map right.map
  | .newClass node className => .newClass (f node) className
  | .newArray node elementType length => .newArray (f node) elementType length.map
  | .typeTest node inst className => .typeTest (f node) inst.map className
  | .typeCast node className expr => .typeCast (f node) className expr.map

def Exprs.map : Exprs A → Exprs B
  | .nil => .nil
  | .cons expr exprs => .cons expr.map exprs.map

end

end

namespace TypeCheck

/-! ## The state -/

/-- What is open: the class, `currentFunction` with its scope, the local scopes from the innermost
one on, and the loops. -/
structure Env where
  globals : Globals
  chain : ClassId → List ClassId
  scopes : ClassId → ClassScope
  cls : ClassId
  currentFunction : Function
  formals : List Variable
  locals : List (List Variable)
  breaks : Nat

/-- The state is the list of the errors. -/
abbrev Check := Cmd (List DecafError) Fault

def issueErrors (es : List DecafError) : Check Unit := .modify (· ++ es)

def issueError (e : DecafError) : Check Unit := issueErrors [e]

/-- An error, when there is reason for one. -/
def issueIf (p : Prop) [Decidable p] (e : DecafError) : Check Unit :=
  if p then issueError e else pure ()

inductive Found
  | var (v : Variable)
  | func (f : Function)
  | cls (c : ClassId)

/-- A local scope shows what it defines before the location. -/
def lookupLocals (name : String) (loc : Nat) : List (List Variable) → Option Variable
  | [] => none
  | vs :: locals =>
    match vs.find? fun v => v.name = name with
    | some v => if v.loc > loc then lookupLocals name loc locals else some v
    | none => lookupLocals name loc locals

/-- `lookupBeforeLocation` -/
def Env.lookupBeforeLocation (env : Env) (name : String) (loc : Nat) : Option Found :=
  match lookupLocals name loc env.locals with
  | some v => some (.var v)
  | none =>
    match env.formals.find? fun v => v.name = name with
    | some v => some (.var v)
    | none =>
      match lookupVisible env.scopes name (env.chain env.cls) with
      | some (.var v) => some (.var v)
      | some (.func f) => some (.func f)
      | none => (env.globals.lookupClass name).map .cls

/-! ## Expressions -/

/-- `visitThisExpr` -/
def visitThis (env : Env) (loc : Nat) : Check (Expr Note) :=
  if env.currentFunction.statik then do
    issueError .ThisInStaticFunc
    pure (.this (.fresh loc))
  else pure (.this { Note.fresh loc with type := .ty (.cls env.cls) })

/-- `visitIdent` without an owner. -/
def visitIdent (env : Env) (usedForRef : Bool) (loc : Nat) (name : String) :
    Check (LValue Note) :=
  let node := { Note.fresh loc with usedForRef := usedForRef }
  match env.lookupBeforeLocation name loc with
  | none => do
    issueError .UndeclVar
    pure (.ident node name)
  | some (.var v) =>
    let node := { node with type := .ty v.type, varSymbol := some v }
    match v.definedIn with
    | none => .throw .nullPointer
    | some .LOCAL => pure (.ident { node with lvKind := some .LOCAL_VAR } name)
    | some .FORMAL => pure (.ident { node with lvKind := some .PARAM_VAR } name)
    | some _ =>
      let node := { node with lvKind := some .MEMBER_VAR }
      if env.currentFunction.statik then do
        issueError .RefNonStatic
        pure (.ident node name)
      else do
        let owner ← visitThis env loc
        pure (.select node owner name)
  | some (.func f) => pure (.ident { node with type := .func f.type } name)
  | some (.cls c) =>
    if usedForRef then
      pure (.ident { node with type := .ty (.cls c), isClass := true } name)
    else do
      issueError .UndeclVar
      pure (.ident node name)

/-- `visitIdent` with an owner that has been visited. -/
def visitSelect (env : Env) (usedForRef : Bool) (loc : Nat) (owner : Expr Note) (name : String) :
    Check (LValue Note) :=
  let node := { Note.fresh loc with usedForRef := usedForRef }
  match owner.type with
  | .ty .ERROR => pure (.select node owner name)
  | .ty (.cls c) =>
    if owner.node.isClass then do
      issueError .NotClassField
      pure (.select node owner name)
    else
      match lookupVisible env.scopes name (env.chain c) with
      | none => do
        issueError .FieldNotFound
        pure (.select node owner name)
      | some (.var v) =>
        let node := { node with type := .ty v.type }
        if !(Ty.cls env.cls).compatible env.chain (.cls c) then do
          issueError .FieldNotAccess
          pure (.select node owner name)
        else
          pure (.select { node with varSymbol := some v, lvKind := some .MEMBER_VAR } owner name)
      | some (.func f) => pure (.select { node with type := .func f.type } owner name)
  | _ => do
    issueError .NotClassField
    pure (.select node owner name)

/-- The loop over the actuals and the types of the formals. -/
def checkActuals (env : Env) : List (Expr Note) → List Ty → Check Unit
  | e :: es, t :: ts => do
    let c ← orThrow (e.type.compatible env.chain (.ty t))
    issueIf (e.type ≠ .ty .ERROR ∧ c = false) .BadArgType
    checkActuals env es ts
  | [], _ :: _ => .throw .noSuchElement
  | _, [] => pure ()

/-- The receiver that `checkCallExpr` leaves: none for a static method, `this` where there was none. -/
def receiverOf (env : Env) (func : Function) (loc : Nat) (receiver : Option (Expr Note)) :
    Check (Option (Expr Note)) :=
  if func.statik then pure none
  else if receiver.isNone ∧ !env.currentFunction.statik then do
    let r ← visitThis env loc
    pure (some r)
  else pure receiver

/-- The number of the actuals and their types. -/
def checkArguments (env : Env) (func : Function) (actuals : List (Expr Note)) : Check Unit :=
  let argList := func.type.argList
  if argList.length ≠ actuals.length + (if func.statik then 0 else 1) then issueError .BadArgCount
  else checkActuals env actuals (if func.statik then argList else argList.tail)

def callExpr (node : Note) (receiver : Option (Expr Note)) (method : String)
    (actuals : Exprs Note) : Call Note :=
  match receiver with
  | none => .call node method actuals
  | some r => .callOn node r method actuals

/-- `checkCallExpr`: the visit of the actuals is handed over, for it comes late. -/
def checkCallExpr (env : Env) (node : Note) (receiver : Option (Expr Note)) (method : String)
    (actuals : Exprs Nat) (visitActuals : Check (Exprs Note)) (f : Option Symbol) :
    Check (Call Note) :=
  match f with
  | none => do
    issueError .FieldNotFound
    pure (callExpr node receiver method (actuals.map Note.fresh))
  | some (.var _) => do
    issueError .NotClassMethod
    pure (callExpr node receiver method (actuals.map Note.fresh))
  | some (.func func) => do
    let node := { node with type := .ty func.type.returnType, funcSymbol := some func }
    issueIf (receiver.isNone ∧ env.currentFunction.statik ∧ !func.statik) .RefNonStatic
    issueIf (!func.statik ∧ receiver.any (fun r => r.node.isClass)) .NotClassField
    let receiver ← receiverOf env func node.loc receiver
    let actuals ← visitActuals
    checkArguments env func actuals.toList
    pure (callExpr node receiver method actuals)

/-- `visitCallExpr` with a receiver that has been visited. -/
def visitCallOn (env : Env) (node : Note) (receiver : Expr Note) (method : String)
    (actuals : Exprs Nat) (visitActuals : Check (Exprs Note)) : Check (Call Note) :=
  let unvisited (node : Note) : Call Note :=
    .callOn node receiver method (actuals.map Note.fresh)
  match receiver.type with
  | .ty .ERROR => pure (unvisited node)
  | .ty (.array _) =>
    if method = "length" then do
      issueIf (actuals.toList.length > 0) .BadLengthArg
      pure (unvisited { node with type := .ty .INT, isArrayLength := true })
    else do
      issueError .NotClassField
      pure (unvisited node)
  | .ty (.cls c) =>
    checkCallExpr env node (some receiver) method actuals visitActuals
      (lookupVisible env.scopes method (env.chain c))
  | _ => do
    issueError (if method = "length" then .BadLength else .NotClassField)
    pure (unvisited node)

/-- `checkBinaryOp`, for operands that have been visited. -/
def checkBinaryOp (env : Env) (tag : BinaryTag) (left right : ExprType) : Check ExprType :=
  if left = .ty .ERROR ∨ right = .ty .ERROR then
    match tag with
    | .PLUS | .MINUS | .MUL | .DIV => pure left
    | .MOD => pure (.ty .INT)
    | _ => pure (.ty .BOOL)
  else
    match tag with
    | .PLUS | .MINUS | .MUL | .DIV => do
      issueIf (¬ (left = .ty .INT ∧ right = .ty .INT)) .IncompatBinOp
      pure left
    | .GT | .GE | .LT | .LE => do
      issueIf (¬ (left = .ty .INT ∧ right = .ty .INT)) .IncompatBinOp
      pure (.ty .BOOL)
    | .MOD => do
      issueIf (¬ (left = .ty .INT ∧ right = .ty .INT)) .IncompatBinOp
      pure (.ty .INT)
    | .EQ | .NE => do
      let there ← orThrow (left.compatible env.chain right)
      let back ← (if there then pure true else orThrow (right.compatible env.chain left))
      issueIf (back = false) .IncompatBinOp
      pure (.ty .BOOL)
    | .AND | .OR => do
      issueIf (¬ (left = .ty .BOOL ∧ right = .ty .BOOL)) .IncompatBinOp
      pure (.ty .BOOL)

/-- The type of a unary expression. -/
def checkUnaryOp (tag : UnaryTag) (t : ExprType) : Check ExprType :=
  match tag with
  | .NEG =>
    if t = .ty .ERROR ∨ t = .ty .INT then pure t
    else do
      issueError .IncompatUnOp
      pure (.ty .ERROR)
  | .NOT => do
    issueIf (t ≠ .ty .BOOL ∧ t ≠ .ty .ERROR) .IncompatUnOp
    pure (.ty .BOOL)

/-- The type of an element of the array. -/
def checkElement (array : ExprType) : Check ExprType :=
  match array with
  | .ty (.array t) => pure (.ty t)
  | _ => do
    issueError .NotArray
    pure (.ty .ERROR)

/-- The type of a new array. -/
def checkElementType (env : Env) (elementType : TypeLiteral) : Check ExprType := do
  let (t, errors) := BuildSym.visitType env.globals elementType
  issueErrors errors
  if t = .ERROR then pure (.ty .ERROR)
  else if t = .VOID then do
    issueError .BadArrElement
    pure (.ty .ERROR)
  else pure (.ty (.array t))

/-- The class that an expression names. -/
def findClass (env : Env) (className : String) : Check (Option ClassId) := do
  let c := env.globals.lookupClass className
  issueIf c.isNone .ClassNotFound
  pure c

def classType : Option ClassId → ExprType
  | some c => .ty (.cls c)
  | none => .ty .ERROR

def literalType : LiteralValue → Ty
  | .int _ => .INT
  | .bool _ => .BOOL
  | .string _ => .STRING

mutual

def visitLValue (env : Env) (usedForRef : Bool) : LValue Nat → Check (LValue Note)
  | .ident loc name => visitIdent env usedForRef loc name
  | .select loc owner name => do
    let owner ← visitExpr env true owner
    visitSelect env usedForRef loc owner name
  | .indexed loc array index => do
    let array ← visitExpr env false array
    let type ← checkElement array.type
    let index ← visitExpr env false index
    issueIf (index.type ≠ .ty .INT) .SubNotInt
    pure (.indexed { Note.fresh loc with
      usedForRef := usedForRef, lvKind := some .ARRAY_ELEMENT, type := type } array index)

def visitCall (env : Env) (usedForRef : Bool) : Call Nat → Check (Call Note)
  | .call loc method actuals =>
    checkCallExpr env { Note.fresh loc with usedForRef := usedForRef } none method actuals
      (visitExprs env actuals) (lookupVisible env.scopes method (env.chain env.cls))
  | .callOn loc receiver method actuals => do
    let receiver ← visitExpr env true receiver
    visitCallOn env { Note.fresh loc with usedForRef := usedForRef } receiver method actuals
      (visitExprs env actuals)

/-- The visitors of the expressions. `usedForRef` is what the expression around has set. -/
def visitExpr (env : Env) (usedForRef : Bool) : Expr Nat → Check (Expr Note)
  | .lvalue left => do
    let left ← visitLValue env usedForRef left
    pure (.lvalue left)
  | .call c => do
    let c ← visitCall env usedForRef c
    pure (.call c)
  | .literal loc value =>
    pure (.literal
      { Note.fresh loc with usedForRef := usedForRef, type := .ty (literalType value) } value)
  | .null loc => pure (.null { Note.fresh loc with usedForRef := usedForRef, type := .ty .NULL })
  | .readInt loc =>
    pure (.readInt { Note.fresh loc with usedForRef := usedForRef, type := .ty .INT })
  | .readLine loc =>
    pure (.readLine { Note.fresh loc with usedForRef := usedForRef, type := .ty .STRING })
  | .this loc => visitThis env loc
  | .unary loc tag expr => do
    let expr ← visitExpr env false expr
    let type ← checkUnaryOp tag expr.type
    pure (.unary { Note.fresh loc with usedForRef := usedForRef, type := type } tag expr)
  | .binary loc tag left right => do
    let left ← visitExpr env false left
    let right ← visitExpr env false right
    let type ← checkBinaryOp env tag left.type right.type
    pure (.binary { Note.fresh loc with usedForRef := usedForRef, type := type } tag left right)
  | .newClass loc className => do
    let c ← findClass env className
    pure (.newClass { Note.fresh loc with
      usedForRef := usedForRef, type := classType c, classSymbol := c } className)
  | .newArray loc elementType length => do
    let type ← checkElementType env elementType
    let length ← visitExpr env false length
    issueIf (length.type ≠ .ty .ERROR ∧ length.type ≠ .ty .INT) .BadNewArrayLength
    pure (.newArray { Note.fresh loc with usedForRef := usedForRef, type := type }
      elementType length)
  | .typeTest loc inst className => do
    let inst ← visitExpr env false inst
    issueIf (!inst.type.isClassType) .NotClass
    let c ← findClass env className
    pure (.typeTest { Note.fresh loc with
      usedForRef := usedForRef, type := .ty .BOOL, classSymbol := c } inst className)
  | .typeCast loc className expr => do
    let expr ← visitExpr env false expr
    issueIf (!expr.type.isClassType) .NotClass
    let c ← findClass env className
    pure (.typeCast { Note.fresh loc with
      usedForRef := usedForRef, type := classType c, classSymbol := c } className expr)

def visitExprs (env : Env) : Exprs Nat → Check (Exprs Note)
  | .nil => pure .nil
  | .cons expr exprs => do
    let expr ← visitExpr env false expr
    let exprs ← visitExprs env exprs
    pure (.cons expr exprs)

end

/-! ## Statements -/

/-- `checkTestExpr` -/
def checkTestExpr (env : Env) (expr : Expr Nat) : Check (Expr Note) := do
  let expr ← visitExpr env false expr
  issueIf (expr.type ≠ .ty .ERROR ∧ expr.type ≠ .ty .BOOL) .BadTestExpr
  pure expr

/-- The types of the two sides of an assignment. -/
def checkAssign (env : Env) (left expr : ExprType) : Check Unit :=
  if left = .ty .ERROR then pure ()
  else if left.isFuncType then issueError .IncompatBinOp
  else do
    let c ← orThrow (expr.compatible env.chain left)
    issueIf (c = false) .IncompatBinOp

def visitSimple (env : Env) : Simple Nat → Check (Simple Note)
  | .assign left expr => do
    let left ← visitLValue env false left
    let expr ← visitExpr env false expr
    checkAssign env left.type expr.type
    pure (.assign left expr)
  | .exec c => do
    let c ← visitCall env false c
    pure (.exec c)

def visitOption {α β : Type} (visit : α → Check β) : Option α → Check (Option β)
  | none => pure none
  | some x => do
    let y ← visit x
    pure (some y)

/-- `visitPrint`: each expression is checked as soon as it is visited. -/
def visitPrinted (env : Env) : Exprs Nat → Check (Exprs Note)
  | .nil => pure .nil
  | .cons expr exprs => do
    let expr ← visitExpr env false expr
    issueIf (expr.type ≠ .ty .ERROR ∧ expr.type ≠ .ty .BOOL ∧ expr.type ≠ .ty .INT ∧
      expr.type ≠ .ty .STRING) .BadPrintArg
    let exprs ← visitPrinted env exprs
    pure (.cons expr exprs)

/-- The type of what is returned. -/
def checkReturn (env : Env) (expr : Option (Expr Note)) : Check Unit :=
  let returnType := env.currentFunction.type.returnType
  if returnType = .VOID then issueIf expr.isSome .BadReturnType
  else
    match expr with
    | none => issueError .BadReturnType
    | some e =>
      if e.type = .ty .ERROR then pure ()
      else do
        let c ← orThrow (e.type.compatible env.chain (.ty returnType))
        issueIf (c = false) .BadReturnType

/-- `visitReturn` -/
def visitReturn (env : Env) (expr : Option (Expr Nat)) : Check (Option (Expr Note)) := do
  let expr ← visitOption (visitExpr env false) expr
  checkReturn env expr
  pure expr

def checkVarDef (d : VarDef Built) : VarDef Checked := ⟨d.name, d.type, d.loc, d.symbol⟩

mutual

def visitStmt (env : Env) : Stmt Built → Check (Stmt Checked)
  | .varDef d => pure (.varDef (checkVarDef d))
  | .skip => pure .skip
  | .simple s => do
    let s ← visitSimple env s
    pure (.simple s)
  | .block associatedScope stmts => do
    let stmts ← visitStmts { env with locals := associatedScope :: env.locals } stmts
    pure (.block associatedScope stmts)
  | .whileLoop condition loopBody => do
    let condition ← checkTestExpr env condition
    let loopBody ← visitStmt { env with breaks := env.breaks + 1 } loopBody
    pure (.whileLoop condition loopBody)
  | .forLoop init condition update loopBody => do
    let init ← visitOption (visitSimple env) init
    let condition ← checkTestExpr env condition
    let update ← visitOption (visitSimple env) update
    let loopBody ← visitStmt { env with breaks := env.breaks + 1 } loopBody
    pure (.forLoop init condition update loopBody)
  | .ifThen condition trueBranch => do
    let condition ← checkTestExpr env condition
    let trueBranch ← visitStmt env trueBranch
    pure (.ifThen condition trueBranch)
  | .ifElse condition trueBranch falseBranch => do
    let condition ← checkTestExpr env condition
    let trueBranch ← visitStmt env trueBranch
    let falseBranch ← visitStmt env falseBranch
    pure (.ifElse condition trueBranch falseBranch)
  | .breakStmt => do
    issueIf (env.breaks = 0) .BreakOutOfLoop
    pure .breakStmt
  | .print exprs => do
    let exprs ← visitPrinted env exprs
    pure (.print exprs)
  | .ret expr => do
    let expr ← visitReturn env expr
    pure (.ret expr)

def visitStmts (env : Env) : Stmts Built → Check (Stmts Checked)
  | .nil => pure .nil
  | .cons stmt stmts => do
    let stmt ← visitStmt env stmt
    let stmts ← visitStmts env stmts
    pure (.cons stmt stmts)

end

/-! ## Classes -/

/-- What is open in the body of a method. -/
def methodEnv (r : BuildSym.Result) (c : ClassId) (m : MethodDef Built) : Env :=
  ⟨r.globals, r.chain, r.scopes, c, m.symbol, m.associatedScope, [m.bodyScope], 0⟩

def checkedMethod (m : MethodDef Built) (body : Stmts Checked) : MethodDef Checked :=
  ⟨m.statik, m.name, m.returnType, m.formals.map checkVarDef, m.associatedScope, m.bodyScope, body,
    m.loc, m.symbol⟩

def visitMethodDef (r : BuildSym.Result) (c : ClassId) (m : MethodDef Built) :
    Check (MethodDef Checked) := do
  let body ← visitStmts (methodEnv r c m) m.body
  pure (checkedMethod m body)

def visitFields (r : BuildSym.Result) (c : ClassId) :
    List (Field Built) → Check (List (Field Checked))
  | [] => pure []
  | .var d :: fields => do
    let fields ← visitFields r c fields
    pure (.var (checkVarDef d) :: fields)
  | .method m :: fields => do
    let m ← visitMethodDef r c m
    let fields ← visitFields r c fields
    pure (.method m :: fields)

def visitClassDefs (r : BuildSym.Result) :
    List (ClassDef Built) → ClassId → Check (List (ClassDef Checked))
  | [], _ => pure []
  | cd :: cds, c => do
    let fields ← visitFields r c cd.fields
    let cds ← visitClassDefs r cds (c + 1)
    pure (⟨cd.name, cd.parent, fields⟩ :: cds)

/-- `visitTopLevel` -/
def visitTopLevel (r : BuildSym.Result) : Check (List (ClassDef Checked)) :=
  visitClassDefs r r.classes 0

end TypeCheck

end nehcpu.decaf
