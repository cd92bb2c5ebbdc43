-- The syntax trees of `Tree.java`, as the grammar of `Parser.y` makes them, and the types of
-- `decaf.type`. The nodes carry what the passes have written into them so far.
import Mathlib.Data.List.Basic
import Mathlib.Tactic.Common

namespace nehcpu.decaf

/-! ## Types -/

/-- A class symbol: its place among the `classes` of the program. -/
abbrev ClassId := Nat

inductive BaseType
  | INT | BOOL | NULL | ERROR | STRING | VOID
deriving DecidableEq

/-- A base type, a class type or an array type. -/
inductive Ty
  | base (b : BaseType)
  | cls (symbol : ClassId)
  | array (elementType : Ty)
deriving DecidableEq

namespace Ty

abbrev INT : Ty := .base .INT
abbrev BOOL : Ty := .base .BOOL
abbrev NULL : Ty := .base .NULL
abbrev ERROR : Ty := .base .ERROR
abbrev STRING : Ty := .base .STRING
abbrev VOID : Ty := .base .VOID

def isClassType : Ty → Bool
  | .cls _ => true
  | _ => false

def isArrayType : Ty → Bool
  | .array _ => true
  | _ => false

end Ty

structure FuncType where
  returnType : Ty
  argList : List Ty
deriving DecidableEq

/-- A type as the field `type` of an expression holds it. -/
inductive ExprType
  | ty (t : Ty)
  | func (f : FuncType)
deriving DecidableEq

def ExprType.isFuncType : ExprType → Bool
  | .func _ => true
  | .ty _ => false

def ExprType.isClassType : ExprType → Bool
  | .ty t => t.isClassType
  | .func _ => false

/-! ## Trees -/

inductive TypeIdentTag
  | VOID | INT | BOOL | STRING
deriving DecidableEq

inductive TypeLiteral
  | typeIdent (typeTag : TypeIdentTag)
  | typeClass (name : String)
  | typeArray (elementType : TypeLiteral)

inductive LiteralValue
  | int (value : Int)
  | bool (value : Bool)
  | string (value : String)

inductive UnaryTag
  | NEG | NOT
deriving DecidableEq

inductive BinaryTag
  | PLUS | MINUS | MUL | DIV | MOD | EQ | NE | LT | GT | LE | GE | AND | OR
deriving DecidableEq

mutual

/-- The nodes of an expression carry an `A`. `ident` has no owner, and `select` has one. -/
inductive LValue (A : Type)
  | ident (node : A) (name : String)
  | select (node : A) (owner : Expr A) (name : String)
  | indexed (node : A) (array index : Expr A)

/-- `call` has no receiver, and `callOn` has one. -/
inductive Call (A : Type)
  | call (node : A) (method : String) (actuals : Exprs A)
  | callOn (node : A) (receiver : Expr A) (method : String) (actuals : Exprs A)

inductive Expr (A : Type)
  | lvalue (left : LValue A)
  | call (call : Call A)
  | literal (node : A) (value : LiteralValue)
  | null (node : A)
  | readInt (node : A)
  | readLine (node : A)
  | this (node : A)
  | unary (node : A) (tag : UnaryTag) (expr : Expr A)
  | binary (node : A) (tag : BinaryTag) (left right : Expr A)
  | newClass (node : A) (className : String)
  | newArray (node : A) (elementType : TypeLiteral) (length : Expr A)
  | typeTest (node : A) (inst : Expr A) (className : String)
  | typeCast (node : A) (className : String) (expr : Expr A)

inductive Exprs (A : Type)
  | nil
  | cons (expr : Expr A) (exprs : Exprs A)

end

/-- `SimpleStmt` of the grammar: only a call is executed for itself. -/
inductive Simple (A : Type)
  | assign (left : LValue A) (expr : Expr A)
  | exec (call : Call A)

/-- What the passes write into an expression, a scope, a variable definition and a method. -/
structure Phase where
  node : Type
  scope : Type
  var : Type
  func : Type

structure VarDef (P : Phase) where
  name : String
  type : TypeLiteral
  loc : Nat
  symbol : P.var

mutual

/-- `ifThen` has no `falseBranch`. -/
inductive Stmt (P : Phase)
  | varDef (d : VarDef P)
  | skip
  | simple (s : Simple P.node)
  | block (associatedScope : P.scope) (stmts : Stmts P)
  | whileLoop (condition : Expr P.node) (loopBody : Stmt P)
  | forLoop (init : Option (Simple P.node)) (condition : Expr P.node)
      (update : Option (Simple P.node)) (loopBody : Stmt P)
  | ifThen (condition : Expr P.node) (trueBranch : Stmt P)
  | ifElse (condition : Expr P.node) (trueBranch falseBranch : Stmt P)
  | breakStmt
  | print (exprs : Exprs P.node)
  | ret (expr : Option (Expr P.node))

inductive Stmts (P : Phase)
  | nil
  | cons (stmt : Stmt P) (stmts : Stmts P)

end

/-- `associatedScope` is that of the method, with `this` and the formals, and `bodyScope` that of
its body. -/
structure MethodDef (P : Phase) where
  statik : Bool
  name : String
  returnType : TypeLiteral
  formals : List (VarDef P)
  associatedScope : P.scope
  bodyScope : P.scope
  body : Stmts P
  loc : Nat
  symbol : P.func

inductive Field (P : Phase)
  | var (d : VarDef P)
  | method (m : MethodDef P)

structure ClassDef (P : Phase) where
  name : String
  parent : Option String
  fields : List (Field P)

/-- As the parser leaves a tree: an expression knows its location. -/
abbrev Parsed : Phase := ⟨Nat, Unit, Unit, Unit⟩

/-! ## Locations -/

/-- A place where the text names something without an owner, or where it defines a name. -/
inductive Mark
  | use (loc : Nat)
  | define (loc : Nat)
deriving DecidableEq

def Mark.loc : Mark → Nat
  | .use loc | .define loc => loc

section

variable {A : Type} (loc : A → Nat)

mutual

/-- The marks of an expression, in the order of the text. -/
def LValue.marks : LValue A → List Mark
  | .ident node _ => [.use (loc node)]
  | .select _ owner _ => owner.marks
  | .indexed _ array index => array.marks ++ index.marks

def Call.marks : Call A → List Mark
  | .call _ _ actuals => actuals.marks
  | .callOn _ receiver _ actuals => receiver.marks ++ actuals.marks

def Expr.marks : Expr A → List Mark
  | .lvalue left => left.marks
  | .call c => c.marks
  | .unary _ _ expr | .newArray _ _ expr | .typeTest _ expr _ | .typeCast _ _ expr => expr.marks
  | .binary _ _ left right => left.marks ++ right.marks
  | .literal _ _ | .null _ | .readInt _ | .readLine _ | .this _ | .newClass _ _ => []

def Exprs.marks : Exprs A → List Mark
  | .nil => []
  | .cons expr exprs => expr.marks ++ exprs.marks

end

def Simple.marks : Simple A → List Mark
  | .assign left expr => left.marks loc ++ expr.marks loc
  | .exec c => c.marks loc

end

def optionMarks {α : Type} (marks : α → List Mark) : Option α → List Mark
  | none => []
  | some x => marks x

section

variable {P : Phase} (loc : P.node → Nat)

mutual

def Stmt.marks : Stmt P → List Mark
  | .varDef d => [.define d.loc]
  | .skip | .breakStmt => []
  | .simple s => s.marks loc
  | .block _ stmts => stmts.marks
  | .whileLoop condition loopBody => condition.marks loc ++ loopBody.marks
  | .forLoop init condition update loopBody =>
    optionMarks (Simple.marks loc) init ++ condition.marks loc ++
      optionMarks (Simple.marks loc) update ++ loopBody.marks
  | .ifThen condition trueBranch => condition.marks loc ++ trueBranch.marks
  | .ifElse condition trueBranch falseBranch =>
    condition.marks loc ++ trueBranch.marks ++ falseBranch.marks
  | .print exprs => exprs.marks loc
  | .ret expr => optionMarks (Expr.marks loc) expr

def Stmts.marks : Stmts P → List Mark
  | .nil => []
  | .cons stmt stmts => stmt.marks ++ stmts.marks

end

def Field.marks : Field P → List Mark
  | .var d => [.define d.loc]
  | .method m => .define m.loc :: m.formals.map (fun d => .define d.loc) ++ m.body.marks loc

end

/-- A syntax tree. Its marks stand in the order of the text. -/
structure Program where
  classes : List (ClassDef Parsed)
  ordered : (classes.flatMap fun c => c.fields.flatMap (Field.marks id)).Pairwise
    fun a b => a.loc < b.loc

end nehcpu.decaf
