-- The types that the rules of the language give to the expressions of a tree, as functions of the
-- tree and its scopes, and from them the types that each `==` and `!=` compares.
import Nehcpu.Decaf.TypeCheck

namespace nehcpu.decaf

open TypeCheck

/-! ## Types of names -/

def foundType (usedForRef : Bool) : Option Found → ExprType
  | some (.var v) => .ty v.type
  | some (.func f) => .func f.type
  | some (.cls c) => if usedForRef then .ty (.cls c) else .ty .ERROR
  | none => .ty .ERROR

/-- The type of a symbol of a class. -/
def memberType : Option Symbol → ExprType
  | some (.var v) => .ty v.type
  | some (.func f) => .func f.type
  | none => .ty .ERROR

/-- The type of a call that finds the symbol. -/
def resultType : Option Symbol → ExprType
  | some (.func f) => .ty f.type.returnType
  | _ => .ty .ERROR

/-- The symbol that a name stands for behind an owner of this type. -/
def TypeCheck.Env.member (env : Env) (name : String) : ExprType → Option Symbol
  | .ty (.cls c) => lookupVisible env.scopes name (env.chain c)
  | _ => none

def foundClass : Option Found → Bool
  | some (.cls _) => true
  | _ => false

/-- The expression is the name of a class. -/
def Expr.namesClass (env : Env) : Expr Nat → Bool
  | .lvalue (.ident loc name) => foundClass (env.lookupBeforeLocation name loc)
  | _ => false

def elementTypeOf : ExprType → ExprType
  | .ty (.array t) => .ty t
  | _ => .ty .ERROR

def arrayOf (t : Ty) : ExprType :=
  if t = .ERROR ∨ t = .VOID then .ty .ERROR else .ty (.array t)

def binaryType : BinaryTag → ExprType → ExprType
  | .PLUS, left | .MINUS, left | .MUL, left | .DIV, left => left
  | .MOD, _ => .ty .INT
  | _, _ => .ty .BOOL

/-- The type of a call with a receiver of this type. -/
def TypeCheck.Env.resultOn (env : Env) (receiver : ExprType) (method : String) : ExprType :=
  match receiver with
  | .ty (.array _) => if method = "length" then .ty .INT else .ty .ERROR
  | t => resultType (env.member method t)

/-! ## Types of expressions -/

mutual

def LValue.typeOf (env : Env) (usedForRef : Bool) : LValue Nat → ExprType
  | .ident loc name => foundType usedForRef (env.lookupBeforeLocation name loc)
  | .select _ owner name =>
    if owner.namesClass env then .ty .ERROR else memberType (env.member name (owner.typeOf env true))
  | .indexed _ array _ => elementTypeOf (array.typeOf env false)

def Call.typeOf (env : Env) : Call Nat → ExprType
  | .call _ method _ => resultType (env.member method (.ty (.cls env.cls)))
  | .callOn _ receiver method _ => env.resultOn (receiver.typeOf env true) method

def Expr.typeOf (env : Env) (usedForRef : Bool) : Expr Nat → ExprType
  | .lvalue left => left.typeOf env usedForRef
  | .call c => c.typeOf env
  | .literal _ value => .ty (literalType value)
  | .null _ => .ty .NULL
  | .readInt _ => .ty .INT
  | .readLine _ => .ty .STRING
  | .this _ => if env.currentFunction.statik then .ty .ERROR else .ty (.cls env.cls)
  | .unary _ .NEG expr => if expr.typeOf env false = .ty .INT then .ty .INT else .ty .ERROR
  | .unary _ .NOT _ => .ty .BOOL
  | .binary _ tag left _ => binaryType tag (left.typeOf env false)
  | .newClass _ className => classType (env.globals.lookupClass className)
  | .newArray _ elementType _ => arrayOf (BuildSym.visitType env.globals elementType).1
  | .typeTest _ _ _ => .ty .BOOL
  | .typeCast _ className _ => classType (env.globals.lookupClass className)

end

/-! ## Comparisons -/

/-- The types of the two sides of an `==` or `!=`. -/
structure Comparison where
  left : ExprType
  right : ExprType
deriving DecidableEq

/-- Both sides name methods without parameters, also without `this`, whose results are compatible
one way or the other. -/
def Comparison.trips (chain : ClassId → List ClassId) (x : Comparison) : Bool :=
  match x.left, x.right with
  | .func f, .func g => f.argList = [] && g.argList = [] &&
    (f.returnType.compatible chain g.returnType || g.returnType.compatible chain f.returnType)
  | _, _ => false

/-- Both sides name methods, or both are calls without a result. -/
def Comparison.hasNoOperands (x : Comparison) : Bool :=
  match x.left, x.right with
  | .func _, .func _ => true
  | .ty s, .ty t => s = .VOID && t = .VOID
  | _, _ => false

def BinaryTag.isEquality : BinaryTag → Bool
  | .EQ | .NE => true
  | _ => false

def Symbol.isStatik : Option Symbol → Bool
  | some (.func f) => f.statik
  | _ => false

def Symbol.isFunction : Option Symbol → Bool
  | some (.func _) => true
  | _ => false

section

variable (env : Env) (all : Bool)

mutual

/-- The comparisons in an expression. Actuals count where the call finds a method. The receiver of a
static method counts only among `all` comparisons: nobody translates it. -/
def LValue.comparisons : LValue Nat → List Comparison
  | .ident _ _ => []
  | .select _ owner _ => owner.comparisons
  | .indexed _ array index => array.comparisons ++ index.comparisons

def Call.comparisons : Call Nat → List Comparison
  | .call _ method actuals =>
    if Symbol.isFunction (env.member method (.ty (.cls env.cls))) then actuals.comparisons else []
  | .callOn _ receiver method actuals =>
    let f := env.member method (receiver.typeOf env true)
    (if all || !Symbol.isStatik f then receiver.comparisons else []) ++
      (if Symbol.isFunction f then actuals.comparisons else [])

def Expr.comparisons : Expr Nat → List Comparison
  | .lvalue left => left.comparisons
  | .call c => c.comparisons
  | .unary _ _ expr | .newArray _ _ expr | .typeTest _ expr _ | .typeCast _ _ expr =>
    expr.comparisons
  | .binary _ tag left right => left.comparisons ++ right.comparisons ++
    (if tag.isEquality then [⟨left.typeOf env false, right.typeOf env false⟩] else [])
  | .literal _ _ | .null _ | .readInt _ | .readLine _ | .this _ | .newClass _ _ => []

def Exprs.comparisons : Exprs Nat → List Comparison
  | .nil => []
  | .cons expr exprs => expr.comparisons ++ exprs.comparisons

end

def Simple.comparisons : Simple Nat → List Comparison
  | .assign left expr => left.comparisons env all ++ expr.comparisons env all
  | .exec c => c.comparisons env all

end

def optionComparisons {α : Type} (comparisons : α → List Comparison) :
    Option α → List Comparison
  | none => []
  | some x => comparisons x

section

variable (all : Bool)

mutual

/-- The comparisons in a statement: a block shows its variables. -/
def Stmt.comparisons (env : Env) : Stmt Built → List Comparison
  | .varDef _ | .skip | .breakStmt => []
  | .simple s => s.comparisons env all
  | .block vs stmts => stmts.comparisons { env with locals := vs :: env.locals }
  | .whileLoop condition loopBody =>
    condition.comparisons env all ++
      loopBody.comparisons { env with breaks := env.breaks + 1 }
  | .forLoop init condition update loopBody =>
    optionComparisons (Simple.comparisons env all) init ++ condition.comparisons env all ++
      optionComparisons (Simple.comparisons env all) update ++
      loopBody.comparisons { env with breaks := env.breaks + 1 }
  | .ifThen condition trueBranch => condition.comparisons env all ++ trueBranch.comparisons env
  | .ifElse condition trueBranch falseBranch =>
    condition.comparisons env all ++ trueBranch.comparisons env ++ falseBranch.comparisons env
  | .print exprs => exprs.comparisons env all
  | .ret expr => optionComparisons (Expr.comparisons env all) expr

def Stmts.comparisons (env : Env) : Stmts Built → List Comparison
  | .nil => []
  | .cons stmt stmts => stmt.comparisons env ++ stmts.comparisons env

end

def Field.comparisons (r : BuildSym.Result) (c : ClassId) : Field Built → List Comparison
  | .var _ => []
  | .method m => m.body.comparisons all (methodEnv r c m)

def classComparisons (r : BuildSym.Result) : List (ClassDef Built) → ClassId → List Comparison
  | [], _ => []
  | cd :: cds, c => cd.fields.flatMap (Field.comparisons all r c) ++ classComparisons r cds (c + 1)

end

/-- The comparisons of a program, `all` of them or those that are translated. -/
def BuildSym.Result.comparisons (all : Bool) (r : BuildSym.Result) : List Comparison :=
  classComparisons all r r.classes 0

end nehcpu.decaf
