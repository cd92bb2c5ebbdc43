-- `BuildSym.java`: the symbols of the classes, the methods and the variables, and the scopes that
-- they stand in.
import Nehcpu.Decaf.Tree
import Nehcpu.Lib.Command

namespace nehcpu.decaf

open command

/-! ## Failures -/

/-- What Java throws, and an instruction that would have a null operand. -/
inductive Fault
  | nullPointer | noSuchElement | emptyStack | indexOutOfBounds | negativeArraySize
  | stackOverflow | nullOperand
deriving DecidableEq

/-- The errors that the passes issue. -/
inductive DecafError
  | BadArgCount | BadArgType | BadArrElement | BadInheritance | BadLengthArg | BadLength
  | BadNewArrayLength | BadOverride | BadPrintArg | BadReturnType | BadTestExpr | BadVarType
  | BreakOutOfLoop | ClassNotFound | DeclConflict | FieldNotAccess | FieldNotFound
  | IncompatBinOp | IncompatUnOp | NoMainClass | NotArray | NotClass | NotClassField
  | NotClassMethod | OverridingVar | RefNonStatic | SubNotInt | ThisInStaticFunc | UndeclVar
deriving DecidableEq

/-! ## compatible -/

/-- `compatible` of the types that are no functions. `chain` gives a class with its ancestors. -/
def Ty.compatible (chain : ClassId → List ClassId) : Ty → Ty → Bool
  | .cls c, t => t = .ERROR || (match t with
    | .cls d => d ∈ chain c
    | _ => false)
  | .array e, t => t = .ERROR || t = .array e
  | .base b, t => b = .ERROR || t = .ERROR || (b = .NULL && t.isClassType) || t = .base b

/-- `FuncType.compatible`. The first argument is passed over in both lists, whether there is one or
not. -/
def FuncType.compatible (chain : ClassId → List ClassId) (f g : FuncType) : Except Fault Bool :=
  if !f.returnType.compatible chain g.returnType || f.argList.length ≠ g.argList.length then
    .ok false
  else
    match f.argList, g.argList with
    | _ :: as, _ :: bs => .ok ((as.zip bs).all fun x => x.2.compatible chain x.1)
    | _, _ => .error .noSuchElement

def ExprType.compatible (chain : ClassId → List ClassId) : ExprType → ExprType → Except Fault Bool
  | .ty a, .ty b => .ok (a.compatible chain b)
  | .ty a, .func _ => .ok (a = .ERROR)
  | .func _, .ty b => .ok (b = .ERROR)
  | .func f, .func g => f.compatible chain g

/-- A call that may throw. -/
def orThrow {σ α : Type} : Except Fault α → Cmd σ Fault α
  | .ok a => .ret a
  | .error e => .throw e

/-! ## Symbols -/

inductive ScopeKind
  | GLOBAL | CLASS | FORMAL | LOCAL
deriving DecidableEq

/-- `definedIn` is the kind of the scope, or null for a variable that is in none. -/
structure Variable where
  name : String
  type : Ty
  loc : Nat
  definedIn : Option ScopeKind
deriving DecidableEq

/-- `definedIn` is the class that it is declared in, or null. -/
structure Function where
  name : String
  statik : Bool
  type : FuncType
  loc : Nat
  definedIn : Option ClassId
deriving DecidableEq

/-- A symbol of a class. -/
inductive Symbol
  | var (v : Variable)
  | func (f : Function)
deriving DecidableEq

def Symbol.name : Symbol → String
  | .var v => v.name
  | .func f => f.name

/-- The scopes are read in the order in which the symbols were declared. -/
abbrev ClassScope := List Symbol

abbrev Globals := List (String × ClassId)

/-- `lookupClass` -/
def Globals.lookupClass (globals : Globals) (name : String) : Option ClassId :=
  (globals.find? fun x => x.1 = name).map Prod.snd

/-- `lookupVisible`, along the ancestors of a class. -/
def lookupVisible (scopes : ClassId → ClassScope) (name : String) : List ClassId → Option Symbol
  | [] => none
  | c :: cs =>
    match (scopes c).find? fun s => s.name = name with
    | some s => some s
    | none => lookupVisible scopes name cs

/-- As `BuildSym` leaves a tree. -/
abbrev Built : Phase := ⟨Nat, List Variable, Variable, Function⟩

namespace BuildSym

/-! ## The classes -/

/-- `new Class` and `declare`, for one class after the other. -/
def declareClasses : List (ClassDef Parsed) → ClassId → Globals → Globals × List DecafError
  | [], _, globals => (globals, [])
  | cd :: cds, c, globals =>
    if (globals.lookupClass cd.name).isSome then
      let (globals, errors) := declareClasses cds (c + 1) globals
      (globals, .DeclConflict :: errors)
    else declareClasses cds (c + 1) (globals ++ [(cd.name, c)])

/-- `getParent`: the class that the name of the parent stands for. -/
def getParent (globals : Globals) (parentName : ClassId → Option String) (c : ClassId) :
    Option ClassId :=
  (parentName c).bind globals.lookupClass

/-- `calcOrder`. A class that has no order yet has -1. -/
def calcOrder (parent : ClassId → Option ClassId) :
    Nat → (ClassId → Int) → Option ClassId → Except Fault ((ClassId → Int) × Int)
  | _, order, none => .ok (order, -1)
  | 0, _, some _ => .error .stackOverflow
  | fuel + 1, order, some c =>
    if order c < 0 then
      match calcOrder parent fuel (Function.update order c 0) (parent c) with
      | .ok (order, p) => .ok (Function.update order c (p + 1), p + 1)
      | .error e => .error e
    else .ok (order, order c)

/-- The names of the parents, which `dettachParent` removes, the orders, and the errors, each issued
at the location of a class. -/
structure Inheritance where
  parentName : ClassId → Option String
  order : ClassId → Int
  errors : List (ClassId × DecafError)

def Inheritance.dettachParent (h : Inheritance) (c : ClassId) (e : DecafError) : Inheritance :=
  { h with parentName := Function.update h.parentName c none, errors := h.errors ++ [(c, e)] }

/-- One turn of the loop that checks the parents. -/
def checkParent (globals : Globals) (fuel : Nat) (h : Inheritance) (c : ClassId) :
    Except Fault Inheritance :=
  let h := if (h.parentName c).isSome ∧ (getParent globals h.parentName c).isNone then
    h.dettachParent c .ClassNotFound else h
  let parent := getParent globals h.parentName
  match calcOrder parent fuel h.order (some c) with
  | .error e => .error e
  | .ok (order, o) =>
    match calcOrder parent fuel order (parent c) with
    | .error e => .error e
    | .ok (order, p) =>
      let h := { h with order := order }
      .ok (if o ≤ p then h.dettachParent c .BadInheritance else h)

def checkParents (globals : Globals) (fuel : Nat) : Inheritance → List ClassId →
    Except Fault Inheritance
  | h, [] => .ok h
  | h, c :: cs =>
    match checkParent globals fuel h c with
    | .error e => .error e
    | .ok h => checkParents globals fuel h cs

/-- `createType`, which goes up to the class that has no parent: the class with its ancestors. All
later walks along the parents pass the same classes. -/
def createType (parent : ClassId → Option ClassId) : Nat → ClassId → Except Fault (List ClassId)
  | 0, _ => .error .stackOverflow
  | fuel + 1, c =>
    match parent c with
    | none => .ok [c]
    | some p =>
      match createType parent fuel p with
      | .ok cs => .ok (c :: cs)
      | .error e => .error e

/-! ## Types -/

/-- `visitTypeIdent`, `visitTypeClass` and `visitTypeArray` -/
def visitType (globals : Globals) : TypeLiteral → Ty × List DecafError
  | .typeIdent .VOID => (.VOID, [])
  | .typeIdent .INT => (.INT, [])
  | .typeIdent .BOOL => (.BOOL, [])
  | .typeIdent .STRING => (.STRING, [])
  | .typeClass name =>
    match globals.lookupClass name with
    | none => (.ERROR, [.ClassNotFound])
    | some c => (.cls c, [])
  | .typeArray elementType =>
    let (t, errors) := visitType globals elementType
    if t = .ERROR then (.ERROR, errors)
    else if t = .VOID then (.ERROR, errors ++ [.BadArrElement])
    else (.array t, errors)

/-! ## Scopes -/

/-- The stack, from the innermost scope on: those of a method, if one is open, then the class
`current`, its ancestors and the global scope. -/
structure Table where
  globals : Globals
  chain : ClassId → List ClassId
  scopes : ClassId → ClassScope
  current : ClassId
  inner : List (ScopeKind × List Variable)
  errors : List DecafError

/-- Where `lookup` finds a name. -/
inductive Place
  | inner (depth : Nat)
  | cls (c : ClassId)
  | global
deriving DecidableEq

abbrev Build := Cmd Table Fault

def issueErrors (errors : List DecafError) : Build Unit :=
  .modify fun t => { t with errors := t.errors ++ errors }

/-- `lookup` through the inner scopes. -/
def lookupInner (name : String) : List (ScopeKind × List Variable) → Nat → Option Place
  | [], _ => none
  | (_, vs) :: inner, depth =>
    if vs.any fun v => v.name = name then some (.inner depth) else lookupInner name inner (depth + 1)

/-- `lookup` through all scopes. -/
def Table.lookup (t : Table) (name : String) : Option Place :=
  match lookupInner name t.inner 0 with
  | some p => some p
  | none =>
    match (t.chain t.current).find? fun c => (t.scopes c).any fun s => s.name = name with
    | some c => some (.cls c)
    | none => if (t.globals.lookupClass name).isSome then some .global else none

/-- The scope on top of the stack. -/
def Table.getCurrentScope (t : Table) : Place :=
  if t.inner = [] then .cls t.current else .inner 0

/-- The symbol is found in the same scope, or in one of the method. -/
def Table.conflicts (t : Table) (name : String) : Bool :=
  match t.lookup name with
  | none => false
  | some p => p = t.getCurrentScope || (match p with
    | .inner _ => true
    | _ => false)

/-- `declare` for a variable: the symbol knows its scope then. -/
def declare (v : Variable) : Build Variable := fun t =>
  match t.inner with
  | [] =>
    let v := { v with definedIn := some .CLASS }
    .ok v { t with
      scopes := Function.update t.scopes t.current (t.scopes t.current ++ [.var v]) }
  | (kind, vs) :: inner =>
    let v := { v with definedIn := some kind }
    .ok v { t with inner := (kind, vs ++ [v]) :: inner }

def visitVarDef (d : VarDef Parsed) : Build (VarDef Built) := do
  let t ← Cmd.get
  let (type, errors) := visitType t.globals d.type
  issueErrors errors
  if type = .VOID then
    issueErrors [.BadVarType]
    pure ⟨d.name, d.type, d.loc, ⟨".error", .ERROR, d.loc, none⟩⟩
  else
    let v : Variable := ⟨d.name, type, d.loc, none⟩
    if t.conflicts d.name then
      issueErrors [.DeclConflict]
      pure ⟨d.name, d.type, d.loc, v⟩
    else
      let v ← declare v
      pure ⟨d.name, d.type, d.loc, v⟩

def openScope (kind : ScopeKind) (vs : List Variable) : Build Unit :=
  .modify fun t => { t with inner := (kind, vs) :: t.inner }

/-- `close`: what the scope holds by then. -/
def closeScope : Build (List Variable) := fun t =>
  match t.inner with
  | [] => .fail .emptyStack t
  | (_, vs) :: inner => .ok vs { t with inner := inner }

mutual

/-- The visitors of the statements. The expressions are left alone. -/
def visitStmt : Stmt Parsed → Build (Stmt Built)
  | .varDef d => do
    let d ← visitVarDef d
    pure (.varDef d)
  | .skip => pure .skip
  | .simple s => pure (.simple s)
  | .block _ stmts => do
    openScope .LOCAL []
    let stmts ← visitStmts stmts
    let associatedScope ← closeScope
    pure (.block associatedScope stmts)
  | .whileLoop condition loopBody => do
    let loopBody ← visitStmt loopBody
    pure (.whileLoop condition loopBody)
  | .forLoop init condition update loopBody => do
    let loopBody ← visitStmt loopBody
    pure (.forLoop init condition update loopBody)
  | .ifThen condition trueBranch => do
    let trueBranch ← visitStmt trueBranch
    pure (.ifThen condition trueBranch)
  | .ifElse condition trueBranch falseBranch => do
    let trueBranch ← visitStmt trueBranch
    let falseBranch ← visitStmt falseBranch
    pure (.ifElse condition trueBranch falseBranch)
  | .breakStmt => pure .breakStmt
  | .print exprs => pure (.print exprs)
  | .ret expr => pure (.ret expr)

def visitStmts : Stmts Parsed → Build (Stmts Built)
  | .nil => pure .nil
  | .cons stmt stmts => do
    let stmt ← visitStmt stmt
    let stmts ← visitStmts stmts
    pure (.cons stmt stmts)

end

def visitVarDefs : List (VarDef Parsed) → Build (List (VarDef Built))
  | [] => pure []
  | d :: ds => do
    let d ← visitVarDef d
    let ds ← visitVarDefs ds
    pure (d :: ds)

/-- The type that `appendParam` gets for a formal. -/
def formalType (globals : Globals) (d : VarDef Parsed) : Ty :=
  let t := (visitType globals d.type).1
  if t = .VOID then .ERROR else t

/-- `new Variable ("this", ...)` -/
def thisVariable (c : ClassId) (loc : Nat) : Variable := ⟨"this", .cls c, loc, some .FORMAL⟩

/-- `new Function`, with the formals that are appended while they are visited. -/
def newFunction (globals : Globals) (c : ClassId) (returnType : Ty) (m : MethodDef Parsed) :
    Function :=
  ⟨m.name, m.statik, ⟨returnType, (if m.statik then [] else [.cls c]) ++
    m.formals.map (formalType globals)⟩, m.loc, none⟩

/-- `declare` for a function. -/
def declareFunction (f : Function) : Build Function := fun t =>
  let f := { f with definedIn := some t.current }
  .ok f { t with
    scopes := Function.update t.scopes t.current (t.scopes t.current ++ [.func f]) }

def visitMethodDef (m : MethodDef Parsed) : Build (MethodDef Built) := do
  let t ← Cmd.get
  let (returnType, errors) := visitType t.globals m.returnType
  issueErrors errors
  let f := newFunction t.globals t.current returnType m
  let f ← (if (t.scopes t.current).any (fun s => s.name = m.name) then do
      issueErrors [.DeclConflict]
      pure f
    else declareFunction f)
  openScope .FORMAL (if m.statik then [] else [thisVariable t.current m.loc])
  let formals ← visitVarDefs m.formals
  openScope .LOCAL []
  let body ← visitStmts m.body
  let bodyScope ← closeScope
  let associatedScope ← closeScope
  pure ⟨m.statik, m.name, m.returnType, formals, associatedScope, bodyScope, body, m.loc, f⟩

def visitFields : List (Field Parsed) → Build (List (Field Built))
  | [] => pure []
  | .var d :: fields => do
    let d ← visitVarDef d
    let fields ← visitFields fields
    pure (.var d :: fields)
  | .method m :: fields => do
    let m ← visitMethodDef m
    let fields ← visitFields fields
    pure (.method m :: fields)

def visitClassDefs : List (ClassDef Parsed) → ClassId → Build (List (ClassDef Built))
  | [], _ => pure []
  | cd :: cds, c => do
    Cmd.modify fun t => { t with current := c }
    let fields ← visitFields cd.fields
    let cds ← visitClassDefs cds (c + 1)
    pure (⟨cd.name, cd.parent, fields⟩ :: cds)

/-! ## checkOverride -/

/-- The error of a symbol whose name stands for `sym` in an ancestor. -/
def overrideError (chain : ClassId → List ClassId) (suspect : Symbol) :
    Symbol → Except Fault (Option DecafError)
  | .var _ =>
    match suspect with
    | .func _ => .ok (some .DeclConflict)
    | .var _ => .ok (some .OverridingVar)
  | .func g =>
    match suspect with
    | .var _ => .ok (some .DeclConflict)
    | .func f =>
      if f.statik || g.statik then .ok (some .DeclConflict)
      else
        match f.type.compatible chain g.type with
        | .ok true => .ok none
        | .ok false => .ok (some .BadOverride)
        | .error e => .error e

/-- The loop over the symbols of a class. Those with an error are removed. -/
def checkSymbols (chain : ClassId → List ClassId) (find : String → Option Symbol) :
    ClassScope → Except Fault (ClassScope × List DecafError)
  | [] => .ok ([], [])
  | suspect :: rest =>
    match find suspect.name with
    | none =>
      match checkSymbols chain find rest with
      | .ok (kept, errors) => .ok (suspect :: kept, errors)
      | .error e => .error e
    | some sym =>
      match overrideError chain suspect sym with
      | .error e => .error e
      | .ok error =>
        match checkSymbols chain find rest with
        | .ok (kept, errors) =>
          match error with
          | none => .ok (suspect :: kept, errors)
          | some e => .ok (kept, e :: errors)
        | .error e => .error e

/-- What `checkOverride` writes: the scopes, the flag `check` and the errors. -/
structure Checks where
  scopes : ClassId → ClassScope
  check : ClassId → Bool
  errors : List DecafError

/-- `checkOverride` of a class whose ancestors have been checked. A class of the global scope that
has the name is no conflict. -/
def checkClass (chain : ClassId → List ClassId) (s : Checks) (c : ClassId) : Except Fault Checks :=
  if s.check c then .ok s
  else
    match (chain c).tail with
    | [] => .ok s
    | p :: ps =>
      match checkSymbols chain (fun name => lookupVisible s.scopes name (p :: ps)) (s.scopes c) with
      | .error e => .error e
      | .ok (kept, errors) => .ok {
          scopes := Function.update s.scopes c kept
          check := Function.update s.check c true
          errors := s.errors ++ errors }

/-- The classes of the list in turn. -/
def checkClasses (chain : ClassId → List ClassId) : Checks → List ClassId → Except Fault Checks
  | s, [] => .ok s
  | s, c :: cs =>
    match checkClass chain s c with
    | .error e => .error e
    | .ok s => checkClasses chain s cs

/-- `checkOverride` for all classes: each with its ancestors first. -/
def checkOverrides (chain : ClassId → List ClassId) (s : Checks) (cs : List ClassId) :
    Except Fault Checks :=
  checkClasses chain s (cs.flatMap fun c => (chain c).reverse)

/-! ## visitTopLevel -/

/-- The function that `isMainClass` finds, and marks. -/
def mainFunction (scopes : ClassId → ClassScope) : Option ClassId → Option Function
  | none => none
  | some c =>
    match (scopes c).find? fun s => s.name = "main" with
    | some (.func f) => some f
    | _ => none

/-- `isMainClass` -/
def isMainClass (scopes : ClassId → ClassScope) (c : Option ClassId) : Bool :=
  match mainFunction scopes c with
  | some f => f.type.returnType = .VOID && f.type.argList = [] && f.statik
  | none => false

/-- The class with the name of the main class, the last one if there are more. -/
def mainClass (cds : List (ClassDef Parsed)) : Option ClassId :=
  ((List.range cds.length).filter fun c => (cds[c]?.map ClassDef.name) = some "Main").getLast?

/-- What `BuildSym` leaves: the trees, the classes with their ancestors and scopes, the function
that is marked as the main one, and the errors. -/
structure Result where
  classes : List (ClassDef Built)
  globals : Globals
  parentName : ClassId → Option String
  chain : ClassId → List ClassId
  scopes : ClassId → ClassScope
  main : Option Function
  errors : List DecafError

/-- The ancestors of all classes, by their parents. -/
def createTypes (parent : ClassId → Option ClassId) (order : ClassId → Int) :
    List ClassId → Except Fault (ClassId → List ClassId)
  | [] => .ok fun _ => []
  | c :: cs =>
    match createType parent ((order c).toNat + 1) c, createTypes parent order cs with
    | .ok l, .ok chain => .ok (Function.update chain c l)
    | .error e, _ => .error e
    | _, .error e => .error e

def visitTopLevel (program : Program) : Except Fault Result :=
  let cds := program.classes
  let ids := List.range cds.length
  let (globals, declErrors) := declareClasses cds 0 []
  let start : Inheritance := ⟨fun c => cds[c]?.bind ClassDef.parent, fun _ => -1, []⟩
  match checkParents globals (cds.length + 1) start ids with
  | .error e => .error e
  | .ok h =>
    match createTypes (getParent globals h.parentName) h.order ids with
    | .error e => .error e
    | .ok chain =>
      match visitClassDefs cds 0 ⟨globals, chain, fun _ => [], 0, [],
          declErrors ++ h.errors.map Prod.snd⟩ with
      | .fail e _ => .error e
      | .stop => .error .stackOverflow
      | .ok classes t =>
        match checkOverrides chain ⟨t.scopes, fun _ => false, t.errors⟩ ids with
        | .error e => .error e
        | .ok s => .ok {
            classes := classes
            globals := globals
            parentName := h.parentName
            chain := chain
            scopes := s.scopes
            main := mainFunction s.scopes (mainClass cds)
            errors := s.errors ++
              if isMainClass s.scopes (mainClass cds) then [] else [.NoMainClass] }

end BuildSym

end nehcpu.decaf
