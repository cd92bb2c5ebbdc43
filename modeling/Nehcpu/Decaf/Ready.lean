-- Checked trees in which the translater finds what it reads: a symbol with a temp behind each name,
-- and a value behind each operand. Only the sides of `==` and `!=` may be without one.
import Nehcpu.Decaf.Typing

namespace nehcpu.decaf

/-- The type of an expression that leaves a value. -/
def ExprType.hasValue : ExprType → Bool
  | .ty t => t ≠ .VOID
  | .func _ => false

/-- Two types as `==` compares them: values, methods or calls without a result. -/
def matched (s t : ExprType) : Prop :=
  (s.hasValue ∧ t.hasValue) ∨ (s.isFuncType ∧ t.isFuncType) ∨ (s = .ty .VOID ∧ t = .ty .VOID)

/-- The methods and the number of the classes of the program, and whether there is no `this`. -/
structure Known where
  methods : List Function
  classes : Nat
  statik : Bool

/-- The name of a method, which is no expression to be translated. -/
def Note.isMethod (node : Note) : Prop := node.lvKind = none ∧ node.type.isFuncType

/-- A class symbol that the translater knows. -/
def Note.hasClass (k : Known) (node : Note) : Prop := ∃ c, node.classSymbol = some c ∧ c < k.classes

/-- A method that the translater knows, with the type of its result. -/
def Note.hasFunction (k : Known) (node : Note) : Prop :=
  ∃ f ∈ k.methods, node.funcSymbol = some f ∧ node.type = .ty f.type.returnType

section

variable (k : Known) (defined : List Nat)

mutual

/-- `defined` are the locations of the variables that have a temp. -/
def LValue.Ready : LValue Note → Prop
  | .ident node _ => node.isMethod ∨
    (node.lvKind = some .LOCAL_VAR ∨ node.lvKind = some .PARAM_VAR) ∧ node.type.hasValue ∧
      ∃ v, node.varSymbol = some v ∧ v.loc ∈ defined
  | .select node owner _ => node.isMethod ∨
    node.lvKind = some .MEMBER_VAR ∧ node.type.hasValue ∧ node.varSymbol.isSome ∧
      owner.Ready ∧ owner.type.hasValue
  | .indexed node array index =>
    node.lvKind = some .ARRAY_ELEMENT ∧ node.type.hasValue ∧
      (array.Ready ∧ array.type.hasValue) ∧ index.Ready ∧ index.type.hasValue

def Call.Ready : Call Note → Prop
  | .call node _ actuals => node.isArrayLength = false ∧ node.hasFunction k ∧ actuals.Ready
  | .callOn node receiver _ actuals => (receiver.Ready ∧ receiver.type.hasValue) ∧
    (node.isArrayLength = true ∧ node.type.hasValue ∨
      node.isArrayLength = false ∧ node.hasFunction k ∧ actuals.Ready)

def Expr.Ready : Expr Note → Prop
  | .lvalue left => left.Ready
  | .call c => c.Ready
  | .literal node _ | .null node | .readInt node | .readLine node => node.type.hasValue
  | .this node => node.type.hasValue ∧ k.statik = false
  | .unary node _ expr | .newArray node _ expr =>
    node.type.hasValue ∧ expr.Ready ∧ expr.type.hasValue
  | .binary node tag left right => node.type.hasValue ∧ left.Ready ∧ right.Ready ∧
    if tag.isEquality then matched left.type right.type
    else left.type.hasValue ∧ right.type.hasValue
  | .newClass node _ => node.type.hasValue ∧ node.hasClass k
  | .typeTest node expr _ | .typeCast node _ expr =>
    node.type.hasValue ∧ node.hasClass k ∧ expr.Ready ∧ expr.type.hasValue

/-- Expressions of which each leaves a value. -/
def Exprs.Ready : Exprs Note → Prop
  | .nil => True
  | .cons expr exprs => (expr.Ready ∧ expr.type.hasValue) ∧ exprs.Ready

end

def Expr.Used (e : Expr Note) : Prop := e.Ready k defined ∧ e.type.hasValue

def Simple.Ready : Simple Note → Prop
  | .assign left expr => (left.Ready k defined ∧ left.type.hasValue) ∧ expr.Used k defined
  | .exec c => c.Ready k defined

end

/-- What holds of an expression that may be missing. -/
def optionAll {α : Type} (P : α → Prop) : Option α → Prop
  | none => True
  | some x => P x

section

variable {P : Phase}

mutual

/-- The locations of the variables that a statement defines. -/
def Stmt.defs : Stmt P → List Nat
  | .varDef d => [d.loc]
  | .block _ stmts => stmts.defs
  | .whileLoop _ loopBody | .forLoop _ _ _ loopBody => loopBody.defs
  | .ifThen _ trueBranch => trueBranch.defs
  | .ifElse _ trueBranch falseBranch => trueBranch.defs ++ falseBranch.defs
  | .skip | .simple _ | .breakStmt | .print _ | .ret _ => []

def Stmts.defs : Stmts P → List Nat
  | .nil => []
  | .cons stmt stmts => stmt.defs ++ stmts.defs

end

end

/-! ## Definitions among the marks -/

mutual

theorem LValue.no_define {A : Type} (loc : A → Nat) (l : Nat) : ∀ (e : LValue A),
    .define l ∉ e.marks loc
  | .ident _ _ => by simp [LValue.marks]
  | .select _ owner _ => Expr.no_define loc l owner
  | .indexed _ array index => by
    simp [LValue.marks, Expr.no_define loc l array, Expr.no_define loc l index]

theorem Call.no_define {A : Type} (loc : A → Nat) (l : Nat) : ∀ (c : Call A),
    .define l ∉ c.marks loc
  | .call _ _ actuals => Exprs.no_define loc l actuals
  | .callOn _ receiver _ actuals => by
    simp [Call.marks, Expr.no_define loc l receiver, Exprs.no_define loc l actuals]

theorem Expr.no_define {A : Type} (loc : A → Nat) (l : Nat) : ∀ (e : Expr A),
    .define l ∉ e.marks loc
  | .lvalue left => LValue.no_define loc l left
  | .call c => Call.no_define loc l c
  | .unary _ _ e | .newArray _ _ e | .typeTest _ e _ | .typeCast _ _ e => Expr.no_define loc l e
  | .binary _ _ left right => by
    simp [Expr.marks, Expr.no_define loc l left, Expr.no_define loc l right]
  | .literal _ _ | .null _ | .readInt _ | .readLine _ | .this _ | .newClass _ _ => by
    simp [Expr.marks]

theorem Exprs.no_define {A : Type} (loc : A → Nat) (l : Nat) : ∀ (es : Exprs A),
    .define l ∉ es.marks loc
  | .nil => by simp [Exprs.marks]
  | .cons e es => by simp [Exprs.marks, Expr.no_define loc l e, Exprs.no_define loc l es]

end

theorem Simple.no_define {A : Type} (loc : A → Nat) (l : Nat) (s : Simple A) :
    .define l ∉ s.marks loc := by
  cases s with
  | assign left expr => simp [Simple.marks, LValue.no_define, Expr.no_define]
  | exec c => simp [Simple.marks, Call.no_define]

theorem optionMarks_no_define {α : Type} {marks : α → List Mark} {l : Nat}
    (h : ∀ a, .define l ∉ marks a) (x : Option α) : .define l ∉ optionMarks marks x := by
  cases x with
  | none => simp [optionMarks]
  | some a => exact h a

section

variable {P : Phase} (loc : P.node → Nat)

mutual

/-- The definitions among the marks of a statement. -/
theorem Stmt.mem_marks {l : Nat} : ∀ (s : Stmt P), .define l ∈ s.marks loc ↔ l ∈ s.defs
  | .varDef d => by simp [Stmt.marks, Stmt.defs]
  | .skip | .breakStmt => by simp [Stmt.marks, Stmt.defs]
  | .simple s => by simp [Stmt.marks, Stmt.defs, Simple.no_define]
  | .block _ stmts => Stmts.mem_marks stmts
  | .whileLoop condition loopBody => by
    simp [Stmt.marks, Stmt.defs, Expr.no_define, Stmt.mem_marks loopBody]
  | .forLoop init condition update loopBody => by
    have hno := optionMarks_no_define (l := l) fun s => Simple.no_define loc l s
    simp [Stmt.marks, Stmt.defs, Expr.no_define, Stmt.mem_marks loopBody, hno]
  | .ifThen condition trueBranch => by
    simp [Stmt.marks, Stmt.defs, Expr.no_define, Stmt.mem_marks trueBranch]
  | .ifElse condition trueBranch falseBranch => by
    simp [Stmt.marks, Stmt.defs, Expr.no_define, Stmt.mem_marks trueBranch,
      Stmt.mem_marks falseBranch]
  | .print exprs => by simp [Stmt.marks, Stmt.defs, Exprs.no_define]
  | .ret expr => by
    have hno := optionMarks_no_define (l := l) fun e => Expr.no_define loc l e
    simp [Stmt.marks, Stmt.defs, hno]

theorem Stmts.mem_marks {l : Nat} : ∀ (ss : Stmts P), .define l ∈ ss.marks loc ↔ l ∈ ss.defs
  | .nil => by simp [Stmts.marks, Stmts.defs]
  | .cons s ss => by
    simp [Stmts.marks, Stmts.defs, Stmt.mem_marks s, Stmts.mem_marks ss]

end

end

section

variable (k : Known)

mutual

/-- `breaks` counts the loops around. -/
def Stmt.Ready (breaks : Nat) (defined : List Nat) : Stmt Checked → Prop
  | .varDef d => d.symbol.definedIn = some .LOCAL ∧ d.symbol.loc = d.loc
  | .skip => True
  | .simple s => s.Ready k defined
  | .block _ stmts => stmts.Ready breaks defined
  | .whileLoop condition loopBody =>
    condition.Used k defined ∧ loopBody.Ready (breaks + 1) defined
  | .forLoop init condition update loopBody =>
    optionAll (Simple.Ready k defined) init ∧ condition.Used k defined ∧
      optionAll (Simple.Ready k defined) update ∧ loopBody.Ready (breaks + 1) defined
  | .ifThen condition trueBranch =>
    condition.Used k defined ∧ trueBranch.Ready breaks defined
  | .ifElse condition trueBranch falseBranch =>
    condition.Used k defined ∧ trueBranch.Ready breaks defined ∧
      falseBranch.Ready breaks (defined ++ trueBranch.defs)
  | .breakStmt => 0 < breaks
  | .print exprs => exprs.Ready k defined
  | .ret expr => optionAll (Expr.Used k defined) expr

def Stmts.Ready (breaks : Nat) (defined : List Nat) : Stmts Checked → Prop
  | .nil => True
  | .cons stmt stmts =>
    stmt.Ready breaks defined ∧ stmts.Ready breaks (defined ++ stmt.defs)

end

end

/-- The locations of `this` and of the formals of a method. -/
def MethodDef.placed {P : Phase} (m : MethodDef P) : List Nat :=
  (if m.statik then [] else [m.loc]) ++ m.formals.map VarDef.loc

/-- A method with its symbols. -/
structure MethodDef.Ready (k : Known) (m : MethodDef Checked) : Prop where
  known : m.symbol ∈ k.methods
  statik : m.symbol.statik = m.statik
  declared : m.symbol.definedIn.isSome
  this : m.statik = false → (m.associatedScope.find? fun v => v.name = "this").isSome
  formals : ∀ v ∈ m.associatedScope, v.loc ∈ m.placed
  symbols : ∀ d ∈ m.formals, d.symbol.loc = d.loc
  body : m.body.Ready { k with statik := m.statik } 0 m.placed

def Field.Ready (k : Known) : Field Checked → Prop
  | .var d => d.symbol.definedIn.isSome
  | .method m => m.Ready k

def ClassDef.Ready (k : Known) (cd : ClassDef Checked) : Prop := ∀ f ∈ cd.fields, f.Ready k

def Field.symbol? {P : Phase} : Field P → Option P.func
  | .var _ => none
  | .method m => some m.symbol

/-- What the passes read of a class beside the bodies of its methods. -/
def ClassDef.heading {P : Phase} (cd : ClassDef P) : Option String × List P.func :=
  (cd.parent, cd.fields.filterMap Field.symbol?)

/-! ## Comparisons of a checked tree -/

mutual

def LValue.compared : LValue Note → List Comparison
  | .ident _ _ => []
  | .select _ owner _ => owner.compared
  | .indexed _ array index => array.compared ++ index.compared

def Call.compared : Call Note → List Comparison
  | .call _ _ actuals => actuals.compared
  | .callOn node receiver _ actuals =>
    receiver.compared ++ if node.isArrayLength then [] else actuals.compared

/-- The comparisons that the translater comes to, with the types that the checker has written. -/
def Expr.compared : Expr Note → List Comparison
  | .lvalue left => left.compared
  | .call c => c.compared
  | .unary _ _ expr | .newArray _ _ expr | .typeTest _ expr _ | .typeCast _ _ expr => expr.compared
  | .binary _ tag left right => left.compared ++ right.compared ++
    (if tag.isEquality then [⟨left.type, right.type⟩] else [])
  | .literal _ _ | .null _ | .readInt _ | .readLine _ | .this _ | .newClass _ _ => []

def Exprs.compared : Exprs Note → List Comparison
  | .nil => []
  | .cons expr exprs => expr.compared ++ exprs.compared

end

def Simple.compared : Simple Note → List Comparison
  | .assign left expr => left.compared ++ expr.compared
  | .exec c => c.compared

mutual

def Stmt.compared : Stmt Checked → List Comparison
  | .varDef _ | .skip | .breakStmt => []
  | .simple s => s.compared
  | .block _ stmts => stmts.compared
  | .whileLoop condition loopBody => condition.compared ++ loopBody.compared
  | .forLoop init condition update loopBody =>
    optionComparisons Simple.compared init ++ condition.compared ++
      optionComparisons Simple.compared update ++ loopBody.compared
  | .ifThen condition trueBranch => condition.compared ++ trueBranch.compared
  | .ifElse condition trueBranch falseBranch =>
    condition.compared ++ trueBranch.compared ++ falseBranch.compared
  | .print exprs => exprs.compared
  | .ret expr => optionComparisons Expr.compared expr

def Stmts.compared : Stmts Checked → List Comparison
  | .nil => []
  | .cons stmt stmts => stmt.compared ++ stmts.compared

end

def Field.compared : Field Checked → List Comparison
  | .var _ => []
  | .method m => m.body.compared

def ClassDef.compared (cd : ClassDef Checked) : List Comparison := cd.fields.flatMap Field.compared

end nehcpu.decaf
