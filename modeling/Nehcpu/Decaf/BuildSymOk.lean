-- What `BuildSym` comes to: it never throws, and the symbols, the scopes and the chains of a program
-- without an error are those of its text.
import Nehcpu.Decaf.Inheritance
import Nehcpu.Decaf.TypeCheckOk

namespace nehcpu.decaf.BuildSym

open command numbering

/-! ## Commands that do not throw -/

/-- `c` returns, and keeps what it issues: where there is no error behind it, there was none before, and
`R` holds. `Q` holds in any case. -/
def Builds {α : Type} (c : Build α) (t : Table) (Q R : α → Table → Prop) : Prop :=
  Cmd.Wp c (fun a u => Q a u ∧ (u.errors = [] → t.errors = [] ∧ R a u)) (fun _ _ => False) False t

section

variable {α β : Type} {t : Table} {c : Build α} {Q R Q' R' : α → Table → Prop}

theorem Builds.bind {f : α → Build β} {P S : β → Table → Prop} (hc : Builds c t Q R)
    (hf : ∀ a u, Q a u → Builds (f a) u P fun b v => R a u → S b v) : Builds (c >>= f) t P S := by
  unfold Builds
  rw [Cmd.wp_bind]
  apply Cmd.Wp.mono hc _ (fun _ _ => id) id
  rintro a u ⟨hq, hr⟩
  apply Cmd.Wp.mono (hf a u hq) _ (fun _ _ => id) id
  rintro b v ⟨hp, hs⟩
  refine ⟨hp, fun hv => ?_⟩
  obtain ⟨hu, hs⟩ := hs hv
  exact ⟨(hr hu).1, hs (hr hu).2⟩

theorem Builds.imp (h : Builds c t Q R) (hq : ∀ a u, Q a u → Q' a u)
    (hr : ∀ a u, Q a u → R a u → R' a u) : Builds c t Q' R' := by
  apply Cmd.Wp.mono h _ (fun _ _ => id) id
  rintro a u ⟨h, hr'⟩
  exact ⟨hq a u h, fun hu => ⟨(hr' hu).1, hr a u h (hr' hu).2⟩⟩

theorem builds_pure {a : α} (hq : Q a t) (hr : R a t) : Builds (pure a) t Q R := by
  unfold Builds
  rw [Cmd.wp_pure]
  exact ⟨hq, fun hu => ⟨hu, hr⟩⟩

theorem builds_get {Q R : Table → Table → Prop} (hq : Q t t) (hr : R t t) :
    Builds Cmd.get t Q R := by
  unfold Builds
  rw [Cmd.wp_get]
  exact ⟨hq, fun hu => ⟨hu, hr⟩⟩

theorem builds_issueErrors (es : List DecafError) :
    Builds (issueErrors es) t (fun _ u => u = { t with errors := t.errors ++ es })
      fun _ u => u = t ∧ es = [] := by
  unfold Builds issueErrors
  rw [Cmd.wp_modify]
  refine ⟨rfl, fun hu => ?_⟩
  obtain ⟨ht, rfl⟩ := List.append_eq_nil_iff.mp hu
  exact ⟨ht, by simp, rfl⟩

end

/-! ## Local scopes -/

/-- `u` is `t` with more variables in the scope on top, and with more errors. -/
def Extended (t : Table) (kind : ScopeKind) (vs : List Variable)
    (rest : List (ScopeKind × List Variable)) (ws : List Variable) (u : Table) : Prop :=
  u = { t with inner := (kind, vs ++ ws) :: rest, errors := u.errors }

theorem Extended.trans {t u v : Table} {kind : ScopeKind} {vs ws ws' : List Variable}
    {rest : List (ScopeKind × List Variable)} (h : Extended t kind vs rest ws u)
    (h' : Extended u kind (vs ++ ws) rest ws' v) : Extended t kind vs rest (ws ++ ws') v := by
  unfold Extended at *
  rw [h', h, List.append_assoc]

theorem visitType_sound_of_nil {globals : Globals} {lit : TypeLiteral}
    (herr : (visitType globals lit).2 = []) (hvoid : (visitType globals lit).1 ≠ .VOID) :
    (visitType globals lit).1.sound = true := by
  rcases visitType_sound globals lit with ⟨-, h⟩ | h | h
  · exact absurd herr h
  · exact absurd h hvoid
  · exact h

/-- The symbol of a variable definition in a scope. -/
def varSymbol (globals : Globals) (kind : ScopeKind) (d : VarDef Parsed) : Variable :=
  ⟨d.name, (visitType globals d.type).1, d.loc, some kind⟩

theorem visitVarDef_local (d : VarDef Parsed) {t : Table} {kind : ScopeKind} {vs : List Variable}
    {rest : List (ScopeKind × List Variable)} (h : t.inner = (kind, vs) :: rest) :
    Builds (visitVarDef d) t
      (fun d' u => d'.loc = d.loc ∧ ∃ ws, Extended t kind vs rest ws u)
      fun d' u => d'.symbol = varSymbol t.globals kind d ∧ d'.symbol.type.sound = true ∧
        u.inner = (kind, vs ++ [d'.symbol]) :: rest := by
  have hsame : ∀ es, Extended t kind vs rest [] { t with errors := es } := by
    intro es
    simp [Extended, ← h]
  unfold Builds visitVarDef
  rw [Cmd.wp_bind, Cmd.wp_get]
  simp only [Cmd.wp_bind, issueErrors, Cmd.wp_modify, Cmd.wp_ite, Cmd.wp_pure]
  split
  · refine ⟨⟨trivial, [], hsame _⟩, fun hu => ?_⟩
    simp at hu
  · next hvoid =>
    split
    · refine ⟨⟨trivial, [], hsame _⟩, fun hu => ?_⟩
      simp at hu
    · unfold Cmd.Wp declare
      simp only [h]
      refine ⟨⟨trivial, [_], rfl⟩, fun hu => ?_⟩
      obtain ⟨ht, herr⟩ := List.append_eq_nil_iff.mp hu
      exact ⟨ht, rfl, visitType_sound_of_nil herr hvoid, trivial⟩

theorem scopeOk_append {vs ws : List Variable} {ds es : List Nat} (h : ScopeOk vs ds)
    (h' : ScopeOk ws es) : ScopeOk (vs ++ ws) (ds ++ es) := by
  intro v hv
  rcases List.mem_append.mp hv with hv | hv
  · obtain ⟨h1, h2, h3⟩ := h v hv
    exact ⟨h1, h2, List.mem_append_left _ h3⟩
  · obtain ⟨h1, h2, h3⟩ := h' v hv
    exact ⟨h1, h2, List.mem_append_right _ h3⟩

/-- What a statement leaves of the table. -/
def StmtBuilt (t : Table) (vs : List Variable) (rest : List (ScopeKind × List Variable))
    (s : Stmt Parsed) (s' : Stmt Built) (u : Table) : Prop :=
  s'.marks id = s.marks id ∧ ∃ ws, Extended t .LOCAL vs rest ws u

def StmtsBuilt (t : Table) (vs : List Variable) (rest : List (ScopeKind × List Variable))
    (ss : Stmts Parsed) (ss' : Stmts Built) (u : Table) : Prop :=
  ss'.marks id = ss.marks id ∧ ∃ ws, Extended t .LOCAL vs rest ws u

/-- The variables that have come into the scope on top. -/
def Scope (vs : List Variable) (rest : List (ScopeKind × List Variable)) (defs : List Nat)
    (u : Table) : Prop :=
  ∃ ws, u.inner = (.LOCAL, vs ++ ws) :: rest ∧ ScopeOk ws defs

theorem Extended.inner {t u : Table} {kind : ScopeKind} {vs ws : List Variable}
    {rest : List (ScopeKind × List Variable)} (h : Extended t kind vs rest ws u) :
    u.inner = (kind, vs ++ ws) :: rest := by
  rw [h]

theorem extended_nil {t : Table} {kind : ScopeKind} {vs : List Variable}
    {rest : List (ScopeKind × List Variable)} (h : t.inner = (kind, vs) :: rest) :
    Extended t kind vs rest [] t := by
  simp [Extended, ← h]

theorem scope_nil {t : Table} {vs : List Variable} {rest : List (ScopeKind × List Variable)}
    (h : t.inner = (.LOCAL, vs) :: rest) : Scope vs rest [] t :=
  ⟨[], by simpa using h, by simp [ScopeOk]⟩

theorem builds_openScope (kind : ScopeKind) (vs : List Variable) {t : Table} :
    Builds (openScope kind vs) t (fun _ u => u = { t with inner := (kind, vs) :: t.inner })
      fun _ _ => True := by
  unfold Builds openScope
  rw [Cmd.wp_modify]
  exact ⟨rfl, fun hu => ⟨hu, trivial⟩⟩

theorem builds_closeScope {t : Table} {kind : ScopeKind} {vs : List Variable}
    {rest : List (ScopeKind × List Variable)} (h : t.inner = (kind, vs) :: rest) :
    Builds closeScope t (fun ws u => ws = vs ∧ u = { t with inner := rest }) fun _ _ => True := by
  unfold Builds Cmd.Wp closeScope
  rw [h]
  exact ⟨⟨rfl, rfl⟩, fun hu => ⟨hu, trivial⟩⟩

/-- Two scopes of which the one stands behind the other. -/
theorem Scope.append {vs ws : List Variable} {rest : List (ScopeKind × List Variable)}
    {ds es : List Nat} {u v : Table} (hu : u.inner = (.LOCAL, vs ++ ws) :: rest)
    (h : Scope vs rest ds u) (h' : Scope (vs ++ ws) rest es v) : Scope vs rest (ds ++ es) v := by
  obtain ⟨xs, hx, hxs⟩ := h
  obtain ⟨ys, hy, hys⟩ := h'
  obtain rfl : ws = xs := by
    rw [hu] at hx
    simpa using hx
  exact ⟨ws ++ ys, by rw [hy, List.append_assoc], scopeOk_append hxs hys⟩

mutual

theorem visitStmt_builds : ∀ (s : Stmt Parsed) {t : Table} {vs : List Variable}
    {rest : List (ScopeKind × List Variable)}, t.inner = (.LOCAL, vs) :: rest →
    Builds (visitStmt s) t (StmtBuilt t vs rest s)
      fun s' u => s'.Scoped ∧ Scope vs rest s'.defs u
  | .varDef d, t, vs, rest, h => by
    apply (visitVarDef_local d h).bind
    rintro d' u ⟨hloc, ws, hext⟩
    refine builds_pure ⟨by simp [Stmt.marks, hloc], ws, hext⟩ fun hr => ?_
    obtain ⟨hsym, hsound, hinner⟩ := hr
    refine ⟨⟨by rw [hsym]; rfl, by rw [hsym, hloc]; rfl⟩, [d'.symbol], hinner, ?_⟩
    intro v hv
    rw [List.mem_singleton.mp hv]
    refine ⟨by rw [hsym]; rfl, hsound, ?_⟩
    rw [hsym]
    simp [Stmt.defs, hloc, varSymbol]
  | .skip, t, vs, rest, h => builds_pure ⟨rfl, [], extended_nil h⟩ ⟨trivial, scope_nil h⟩
  | .simple s, t, vs, rest, h => builds_pure ⟨rfl, [], extended_nil h⟩ ⟨trivial, scope_nil h⟩
  | .breakStmt, t, vs, rest, h => builds_pure ⟨rfl, [], extended_nil h⟩ ⟨trivial, scope_nil h⟩
  | .print es, t, vs, rest, h => builds_pure ⟨rfl, [], extended_nil h⟩ ⟨trivial, scope_nil h⟩
  | .ret e, t, vs, rest, h => builds_pure ⟨rfl, [], extended_nil h⟩ ⟨trivial, scope_nil h⟩
  | .whileLoop condition loopBody, t, vs, rest, h => by
    apply (visitStmt_builds loopBody h).bind
    rintro s' u ⟨hmarks, hext⟩
    exact builds_pure ⟨by simp only [Stmt.marks, hmarks], hext⟩ id
  | .forLoop init condition update loopBody, t, vs, rest, h => by
    apply (visitStmt_builds loopBody h).bind
    rintro s' u ⟨hmarks, hext⟩
    exact builds_pure ⟨by simp only [Stmt.marks, hmarks], hext⟩ id
  | .ifThen condition trueBranch, t, vs, rest, h => by
    apply (visitStmt_builds trueBranch h).bind
    rintro s' u ⟨hmarks, hext⟩
    exact builds_pure ⟨by simp only [Stmt.marks, hmarks], hext⟩ id
  | .ifElse condition trueBranch falseBranch, t, vs, rest, h => by
    apply (visitStmt_builds trueBranch h).bind
    rintro s₁ u ⟨hmarks, ws, hext⟩
    apply (visitStmt_builds falseBranch hext.inner).bind
    rintro s₂ v ⟨hmarks', ws', hext'⟩
    refine builds_pure ⟨by simp only [Stmt.marks, hmarks, hmarks'], _, hext.trans hext'⟩ ?_
    rintro ⟨hscoped', hscope'⟩ ⟨hscoped, hscope⟩
    exact ⟨⟨hscoped, hscoped'⟩, Scope.append hext.inner hscope hscope'⟩
  | .block _ stmts, t, vs, rest, h => by
    apply (builds_openScope .LOCAL []).bind
    rintro _ u rfl
    apply (visitStmts_builds stmts rfl).bind
    rintro ss v ⟨hmarks, ws, hext⟩
    apply (builds_closeScope hext.inner).bind
    rintro scope w ⟨hs, rfl⟩
    refine builds_pure ⟨by simp only [Stmt.marks, hmarks], [], ?_⟩ ?_
    · rw [hext]
      simp [Extended, h]
    · rintro - ⟨hscoped, ws', hinner, hws⟩ -
      obtain rfl : scope = ws' := by
        rw [hext.inner] at hinner
        simpa [hs] using hinner
      refine ⟨⟨hws, hscoped⟩, [], ?_, by simp [ScopeOk]⟩
      simpa using h

theorem visitStmts_builds : ∀ (ss : Stmts Parsed) {t : Table} {vs : List Variable}
    {rest : List (ScopeKind × List Variable)}, t.inner = (.LOCAL, vs) :: rest →
    Builds (visitStmts ss) t (StmtsBuilt t vs rest ss)
      fun ss' u => ss'.Scoped ∧ Scope vs rest ss'.defs u
  | .nil, t, vs, rest, h => builds_pure ⟨rfl, [], extended_nil h⟩ ⟨trivial, scope_nil h⟩
  | .cons stmt stmts, t, vs, rest, h => by
    apply (visitStmt_builds stmt h).bind
    rintro s' u ⟨hmarks, ws, hext⟩
    apply (visitStmts_builds stmts hext.inner).bind
    rintro ss' v ⟨hmarks', ws', hext'⟩
    refine builds_pure ⟨by simp only [Stmts.marks, hmarks, hmarks'], _, hext.trans hext'⟩ ?_
    rintro ⟨hscoped', hscope'⟩ ⟨hscoped, hscope⟩
    exact ⟨⟨hscoped, hscoped'⟩, Scope.append hext.inner hscope hscope'⟩

end

/-- The formals, one after the other. -/
theorem visitVarDefs_builds (ds : List (VarDef Parsed)) {t : Table} {kind : ScopeKind}
    {vs : List Variable} {rest : List (ScopeKind × List Variable)}
    (h : t.inner = (kind, vs) :: rest) :
    Builds (visitVarDefs ds) t
      (fun ds' u => ds'.map VarDef.loc = ds.map VarDef.loc ∧ ∃ ws, Extended t kind vs rest ws u)
      fun ds' u => ds'.map VarDef.symbol = ds.map (varSymbol t.globals kind) ∧
        (∀ d ∈ ds, (varSymbol t.globals kind d).type.sound = true) ∧
        u.inner = (kind, vs ++ ds'.map VarDef.symbol) :: rest := by
  induction ds generalizing t vs with
  | nil => exact builds_pure ⟨rfl, [], extended_nil h⟩ ⟨rfl, by simp, by simpa using h⟩
  | cons d ds ih =>
    apply (visitVarDef_local d h).bind
    rintro d' u ⟨hloc, ws, hext⟩
    apply (ih hext.inner).bind
    rintro ds' v ⟨hlocs, ws', hext'⟩
    refine builds_pure ⟨by simp [hloc, hlocs], _, hext.trans hext'⟩ ?_
    rintro ⟨hsyms, hsounds, hinner'⟩ ⟨hsym, hsound, hinner⟩
    have hglobals : u.globals = t.globals := by rw [hext]
    obtain rfl : ws = [d'.symbol] := by
      rw [hext.inner] at hinner
      simpa using hinner
    rw [hglobals] at hsyms hsounds
    refine ⟨by simp [hsym, hsyms], ?_, by simp [hinner']⟩
    rw [List.forall_mem_cons]
    exact ⟨hsym ▸ hsound, hsounds⟩

/-! ## Methods -/

/-- A method that is not static has `this` among its arguments. -/
def HasThis : Symbol → Prop
  | .var _ => True
  | .func f => f.statik = false → f.type.argList ≠ []

/-- `u` is `t` with more symbols in the scope of the class that is open, and with more errors. -/
def Declared (t : Table) (syms : ClassScope) (u : Table) : Prop :=
  u = { t with
    scopes := Function.update t.scopes t.current (t.scopes t.current ++ syms)
    errors := u.errors }

theorem declared_nil (t : Table) (es : List DecafError) : Declared t [] { t with errors := es } := by
  simp [Declared]

theorem Declared.trans {t u v : Table} {ss ss' : ClassScope} (h : Declared t ss u)
    (h' : Declared u ss' v) : Declared t (ss ++ ss') v := by
  unfold Declared at *
  rw [h', h]
  simp

/-- The name stands for no symbol of the class that is open. -/
def Fresh (t : Table) (name : String) : Prop := ∀ s ∈ t.scopes t.current, s.name ≠ name

/-- What a method without an error has, beside its name. -/
structure MethodBuilt (c : ClassId) (m : MethodDef Built) : Prop where
  ok : TypeCheck.MethodOk m
  definedIn : m.symbol.definedIn = some c
  args : ∀ t ∈ m.symbol.type.argList, t.sound = true
  formals : ∀ d ∈ m.formals, d.symbol.definedIn = some .FORMAL
  this : m.statik = false → ∃ v, m.associatedScope.find? (fun v => v.name = "this") = some v ∧
    v.loc = m.loc

theorem newFunction_hasThis (globals : Globals) (c : ClassId) (returnType : Ty)
    (m : MethodDef Parsed) (definedIn : Option ClassId) :
    HasThis (.func { newFunction globals c returnType m with definedIn := definedIn }) := by
  intro h
  have hstatik : m.statik = false := h
  simp [newFunction, hstatik]

/-- The function is declared, or its name stands in the class already. -/
theorem builds_declareFunction (f : Function) {t : Table} (es : List DecafError)
    (hthis : ∀ c, HasThis (.func { f with definedIn := c })) :
    Builds (if (t.scopes t.current).any (fun s => s.name = f.name) then do
        issueErrors [.DeclConflict]
        pure f
      else declareFunction f) { t with errors := es }
      (fun _ u => ∃ ss, Declared t ss u ∧ ∀ s ∈ ss, HasThis s)
      fun f' u => f' = { f with definedIn := some t.current } ∧ Fresh t f.name ∧
        Declared t [.func f'] u := by
  unfold Builds
  rw [Cmd.wp_ite]
  split
  · rw [Cmd.wp_bind, issueErrors, Cmd.wp_modify, Cmd.wp_pure]
    exact ⟨⟨[], declared_nil t _, by simp⟩, fun hu => by simp at hu⟩
  · next hfresh =>
    refine ⟨⟨[_], rfl, ?_⟩, fun hu => ⟨hu, rfl, ?_, rfl⟩⟩
    · simpa using hthis (some t.current)
    · simpa [Fresh] using hfresh

/-- The scope of a method: `this` and the formals. -/
def formalScope (globals : Globals) (c : ClassId) (m : MethodDef Parsed) : List Variable :=
  (if m.statik then [] else [thisVariable c m.loc]) ++ m.formals.map (varSymbol globals .FORMAL)

theorem formalType_eq {globals : Globals} {d : VarDef Parsed} {kind : ScopeKind}
    (h : (varSymbol globals kind d).type.sound = true) :
    formalType globals d = (varSymbol globals kind d).type := by
  have hvoid := Ty.sound_ne_VOID h
  simp only [varSymbol] at hvoid
  simp [formalType, varSymbol, hvoid]

/-- A method whose parts have been built without an error. -/
theorem methodBuilt_of {globals : Globals} {c : ClassId} {m : MethodDef Parsed} {f : Function}
    {formals : List (VarDef Built)} {body : Stmts Built} {bodyScope : List Variable}
    (hf : f = { newFunction globals c (visitType globals m.returnType).1 m with
      definedIn := some c })
    (htype : (visitType globals m.returnType).2 = [])
    (hlocs : formals.map VarDef.loc = m.formals.map VarDef.loc)
    (hsyms : formals.map VarDef.symbol = m.formals.map (varSymbol globals .FORMAL))
    (hsounds : ∀ d ∈ m.formals, (varSymbol globals .FORMAL d).type.sound = true)
    (hmarks : body.marks id = m.body.marks id) (hscope : ScopeOk bodyScope body.defs)
    (hscoped : body.Scoped) (hord : (m.body.marks id).Pairwise fun a b => a.loc < b.loc) :
    MethodBuilt c ⟨m.statik, m.name, m.returnType, formals, formalScope globals c m, bodyScope, body,
      m.loc, f⟩ := by
  subst hf
  have hformal : ∀ d ∈ formals, ∃ e ∈ m.formals, d.symbol = varSymbol globals .FORMAL e := by
    intro d hd
    have hmem : d.symbol ∈ m.formals.map (varSymbol globals .FORMAL) := by
      rw [← hsyms]
      exact List.mem_map_of_mem hd
    obtain ⟨e, he, hde⟩ := List.mem_map.mp hmem
    exact ⟨e, he, hde.symm⟩
  refine ⟨⟨rfl, rfl, ?_, ?_, ?_, ?_, hscope, hscoped, by rw [hmarks]; exact hord⟩, rfl, ?_, ?_, ?_⟩
  · by_cases hvoid : (visitType globals m.returnType).1 = .VOID
    · simp [ExprType.sound, newFunction, hvoid]
    · exact ExprType.sound_of_ty (visitType_sound_of_nil htype hvoid)
  · intro v hv
    rcases List.mem_append.mp hv with hv | hv
    · split at hv
      · cases hv
      · next hstatik =>
        rw [List.mem_singleton.mp hv]
        exact ⟨rfl, rfl, by simp [MethodDef.placed, hstatik, thisVariable]⟩
    · obtain ⟨d, hd, rfl⟩ := List.mem_map.mp hv
      refine ⟨rfl, hsounds d hd, List.mem_append_right _ ?_⟩
      simp only [hlocs]
      exact List.mem_map_of_mem hd
  · intro hstatik
    have hstatik' : m.statik = false := hstatik
    simp [formalScope, hstatik', thisVariable]
  · intro d hd
    have hlen : formals.length = m.formals.length := by
      simpa using congrArg List.length hlocs
    obtain ⟨i, hi, rfl⟩ := List.getElem_of_mem hd
    have hloc := congrArg (fun l => l[i]?) hlocs
    have hsym := congrArg (fun l => l[i]?) hsyms
    simp only [List.getElem?_map, List.getElem?_eq_getElem hi,
      List.getElem?_eq_getElem (hlen ▸ hi), Option.map_some, Option.some_inj] at hloc hsym
    rw [hloc, hsym]
    rfl
  · intro t ht
    rcases List.mem_append.mp ht with ht | ht
    · split at ht
      · cases ht
      · rw [List.mem_singleton.mp ht]
        rfl
    · obtain ⟨d, hd, rfl⟩ := List.mem_map.mp ht
      rw [formalType_eq (hsounds d hd)]
      exact hsounds d hd
  · intro d hd
    obtain ⟨e, -, hde⟩ := hformal d hd
    rw [hde]
    rfl
  · intro hstatik
    have hstatik' : m.statik = false := hstatik
    exact ⟨thisVariable c m.loc, by simp [formalScope, hstatik', thisVariable], rfl⟩

theorem visitMethodDef_builds (m : MethodDef Parsed) {t : Table} (hinner : t.inner = []) :
    Builds (visitMethodDef m) t
      (fun _ u => ∃ ss, Declared t ss u ∧ ∀ s ∈ ss, HasThis s)
      fun m' u => Declared t [.func m'.symbol] u ∧ Fresh t m.name ∧ m'.symbol.name = m.name ∧
        ((m.body.marks id).Pairwise (fun a b => a.loc < b.loc) → MethodBuilt t.current m') := by
  apply (builds_get (t := t) (Q := fun a u => t = a ∧ t = u) (R := fun _ _ => True)
    ⟨rfl, rfl⟩ trivial).bind
  rintro _ _ ⟨rfl, rfl⟩
  apply (builds_issueErrors _).bind
  rintro _ u rfl
  refine Builds.bind (builds_declareFunction (t := t)
    (newFunction t.globals t.current (visitType t.globals m.returnType).1 m) _
    (newFunction_hasThis _ _ _ _)) ?_
  rintro f u ⟨ss, hdecl, hthis⟩
  apply (builds_openScope .FORMAL _).bind
  rintro _ u₁ rfl
  apply (visitVarDefs_builds m.formals rfl).bind
  rintro formals u₂ ⟨hlocs, ws, hext⟩
  apply (builds_openScope .LOCAL []).bind
  rintro _ u₃ rfl
  apply (visitStmts_builds m.body rfl).bind
  rintro body u₄ ⟨hmarks, vs, hext'⟩
  apply (builds_closeScope hext'.inner).bind
  rintro bodyScope u₅ ⟨hbs, rfl⟩
  refine Builds.bind (builds_closeScope (t := { u₄ with inner := u₂.inner }) hext.inner) ?_
  rintro associatedScope u₆ ⟨has, rfl⟩
  have hback : Declared t ss { u₄ with inner := u.inner } := by
    unfold Extended at hext hext'
    unfold Declared at hdecl ⊢
    rw [hext', hext, hdecl]
  refine builds_pure ⟨ss, hback, hthis⟩ ?_
  rintro - - ⟨hscoped, vs', hinner', hscope⟩ - ⟨hsyms, hsounds, hinner₂⟩ - ⟨hf, hfresh, hdecl'⟩
    ⟨-, htype⟩ -
  have hglobals : u.globals = t.globals := by rw [hdecl]
  obtain rfl : bodyScope = vs' := by
    rw [hext'.inner] at hinner'
    simpa [hbs] using hinner'
  obtain rfl : associatedScope = formalScope t.globals t.current m := by
    rw [hext.inner] at hinner₂
    simp only [hsyms, hglobals] at hinner₂
    rw [has, formalScope]
    simpa using hinner₂
  refine ⟨?_, hfresh, by rw [hf]; rfl, fun hord => ?_⟩
  · unfold Extended at hext hext'
    unfold Declared at hdecl' ⊢
    rw [hext', hext, hdecl']
  · simp only [hglobals] at hsyms hsounds
    exact methodBuilt_of hf htype hlocs hsyms hsounds hmarks (by simpa using hscope) hscoped hord

/-! ## Fields -/

/-- The symbol that a field declares. -/
def declares {N : Type} : Field ⟨N, List Variable, Variable, Function⟩ → Symbol
  | .var d => .var d.symbol
  | .method m => .func m.symbol

/-- A field without an error. -/
def FieldBuilt (globals : Globals) (c : ClassId) : Field Parsed → Field Built → Prop
  | .var d, .var d' =>
    d'.symbol = varSymbol globals .CLASS d ∧ d'.symbol.type.sound = true
  | .method _, .method m' => MethodBuilt c m'
  | _, _ => False

theorem fresh_of_conflicts {t : Table} (hinner : t.inner = [])
    (hhead : (t.chain t.current).head? = some t.current) {name : String}
    (h : t.conflicts name = false) : Fresh t name := by
  intro s hs hname
  obtain ⟨rest, hchain⟩ : ∃ rest, t.chain t.current = t.current :: rest := by
    cases hc : t.chain t.current with
    | nil => simp [hc] at hhead
    | cons c rest =>
      rw [hc, List.head?_cons] at hhead
      exact ⟨rest, by rw [Option.some_inj.mp hhead]⟩
  have hany : ((t.scopes t.current).any fun s => s.name = name) = true :=
    List.any_eq_true.mpr ⟨s, hs, by simpa using hname⟩
  have hlookup : t.lookup name = some (.cls t.current) := by
    simp [Table.lookup, lookupInner, hinner, hchain, hany]
  simp [Table.conflicts, hlookup, Table.getCurrentScope, hinner] at h

theorem visitVarDef_class (d : VarDef Parsed) {t : Table} (hinner : t.inner = [])
    (hhead : (t.chain t.current).head? = some t.current) :
    Builds (visitVarDef d) t
      (fun _ u => ∃ ss, Declared t ss u ∧ ∀ s ∈ ss, HasThis s)
      fun d' u => Declared t [.var d'.symbol] u ∧ Fresh t d.name ∧
        d'.symbol = varSymbol t.globals .CLASS d ∧ d'.symbol.type.sound = true := by
  unfold Builds visitVarDef
  rw [Cmd.wp_bind, Cmd.wp_get]
  simp only [Cmd.wp_bind, issueErrors, Cmd.wp_modify, Cmd.wp_ite, Cmd.wp_pure]
  split
  · refine ⟨⟨[], declared_nil t _, by simp⟩, fun hu => ?_⟩
    simp at hu
  · next hvoid =>
    split
    · refine ⟨⟨[], declared_nil t _, by simp⟩, fun hu => ?_⟩
      simp at hu
    · next hfresh =>
      have hdecl (es : List DecafError) : Declared t [.var (varSymbol t.globals .CLASS d)] { t with
          scopes := Function.update t.scopes t.current
            (t.scopes t.current ++ [.var (varSymbol t.globals .CLASS d)])
          inner := []
          errors := es } := by
        simp [Declared, hinner]
      unfold Cmd.Wp declare
      simp only [hinner]
      refine ⟨⟨_, hdecl _, by simp [HasThis]⟩, fun hu => ?_⟩
      obtain ⟨ht, herr⟩ := List.append_eq_nil_iff.mp hu
      refine ⟨ht, hdecl _, ?_, rfl, visitType_sound_of_nil herr hvoid⟩
      exact fresh_of_conflicts hinner hhead (by simpa using hfresh)

/-- The names of a class stay different when a new one is declared. -/
theorem nodup_names_snoc {syms : ClassScope} {s : Symbol} (h : (syms.map Symbol.name).Nodup)
    (hfresh : ∀ x ∈ syms, x.name ≠ s.name) : ((syms ++ [s]).map Symbol.name).Nodup := by
  rw [List.map_append, List.nodup_append]
  refine ⟨h, by simp, ?_⟩
  intro a ha b hb
  obtain ⟨x, hx, rfl⟩ := List.mem_map.mp ha
  rw [List.map_singleton, List.mem_singleton] at hb
  rw [hb]
  exact hfresh x hx

theorem Declared.scopes {t u : Table} {ss : ClassScope} (h : Declared t ss u) :
    u.scopes t.current = t.scopes t.current ++ ss := by
  rw [h]
  simp

/-- What the fields of a class leave where there is no error. -/
structure FieldsBuilt (t : Table) (fields : List (Field Parsed)) (fields' : List (Field Built))
    (u : Table) : Prop where
  declared : Declared t (fields'.map declares) u
  built : List.Forall₂ (FieldBuilt t.globals t.current) fields fields'
  names : ((t.scopes t.current).map Symbol.name).Nodup →
    ((u.scopes t.current).map Symbol.name).Nodup

theorem visitFields_builds (fields : List (Field Parsed)) {t : Table} (hinner : t.inner = [])
    (hhead : (t.chain t.current).head? = some t.current)
    (hord : (fields.flatMap (Field.marks id)).Pairwise fun a b => a.loc < b.loc) :
    Builds (visitFields fields) t
      (fun _ u => ∃ ss, Declared t ss u ∧ ∀ s ∈ ss, HasThis s)
      (FieldsBuilt t fields) := by
  induction fields generalizing t with
  | nil =>
    exact builds_pure ⟨[], declared_nil t _, by simp⟩ ⟨declared_nil t _, .nil, id⟩
  | cons field fields ih =>
    rw [List.flatMap_cons, List.pairwise_append] at hord
    obtain ⟨hord₁, hord₂, -⟩ := hord
    -- the rest of the fields, behind one that has declared `ss`
    have hrest : ∀ {u : Table} {ss : ClassScope}, Declared t ss u → (∀ s ∈ ss, HasThis s) →
        Builds (visitFields fields) u (fun _ v => ∃ ss', Declared t ss' v ∧ ∀ s ∈ ss', HasThis s)
          (FieldsBuilt u fields) := by
      intro u ss hu hss
      refine (ih (by rw [hu]; exact hinner) (by rw [hu]; exact hhead) hord₂).imp ?_ fun _ _ _ h => h
      rintro - v ⟨ss', hv, hss'⟩
      refine ⟨ss ++ ss', hu.trans hv, fun s hs => ?_⟩
      exact (List.mem_append.mp hs).elim (hss s) (hss' s)
    -- a field with its symbol, in front of the others
    have hcons : ∀ {field' : Field Built} {fields' : List (Field Built)} {u v : Table},
        Declared t [(declares field')] u → Fresh t (declares field').name →
        FieldBuilt t.globals t.current field field' → FieldsBuilt u fields fields' v →
        FieldsBuilt t (field :: fields) (field' :: fields') v := by
      intro field' fields' u v hu hfresh hfield hfields
      have hcurrent : u.current = t.current := by rw [hu]
      have hglobals : u.globals = t.globals := by rw [hu]
      obtain ⟨hv, hbuilt, hnames⟩ := hfields
      rw [hcurrent, hglobals] at hbuilt
      rw [hcurrent] at hnames
      refine ⟨hu.trans hv, .cons hfield hbuilt, fun h => hnames ?_⟩
      rw [hu.scopes]
      exact nodup_names_snoc h hfresh
    cases field with
    | var d =>
      apply (visitVarDef_class d hinner hhead).bind
      rintro d' u ⟨ss, hu, hss⟩
      apply (hrest hu hss).bind
      rintro fields' v hv
      refine builds_pure hv ?_
      rintro hfields ⟨hdecl, hfresh, hsym, hsound⟩
      refine hcons hdecl ?_ ⟨hsym, hsound⟩ hfields
      rw [show (declares (.var d')).name = d'.symbol.name from rfl, hsym]
      exact hfresh
    | method m =>
      apply (visitMethodDef_builds m hinner).bind
      rintro m' u ⟨ss, hu, hss⟩
      apply (hrest hu hss).bind
      rintro fields' v hv
      refine builds_pure hv ?_
      rintro hfields ⟨hdecl, hfresh, hname, hbuilt⟩
      refine hcons hdecl ?_ ?_ hfields
      · rw [show (declares (.method m')).name = m'.symbol.name from rfl, hname]
        exact hfresh
      · exact hbuilt (List.pairwise_append.mp hord₁).2.1

/-! ## Classes -/

/-- A class without an error, by its text. -/
structure ClassBuilt (globals : Globals) (c : ClassId) (cd : ClassDef Parsed) (cd' : ClassDef Built) :
    Prop where
  name : cd'.name = cd.name
  parent : cd'.parent = cd.parent
  fields : List.Forall₂ (FieldBuilt globals c) cd.fields cd'.fields

/-- What has come into the scopes of `n` classes from `c` on. -/
structure ScopesGrow (t : Table) (c : ClassId) (n : Nat) (u : Table) : Prop where
  same : u = { t with scopes := u.scopes, current := u.current, errors := u.errors }
  grows : ∀ x, ∃ ss, u.scopes x = t.scopes x ++ ss ∧ (∀ s ∈ ss, HasThis s) ∧
    (x < c ∨ c + n ≤ x → ss = [])

/-- The classes and their scopes, where there is no error. -/
structure ClassesBuilt (t : Table) (c : ClassId) (cds : List (ClassDef Parsed))
    (cds' : List (ClassDef Built)) (u : Table) : Prop where
  length : cds'.length = cds.length
  built : ∀ i cd cd', cds[i]? = some cd → cds'[i]? = some cd' → ClassBuilt t.globals (c + i) cd cd' ∧
    u.scopes (c + i) = t.scopes (c + i) ++ cd'.fields.map declares ∧
    (((t.scopes (c + i)).map Symbol.name).Nodup → ((u.scopes (c + i)).map Symbol.name).Nodup)

theorem scopesGrow_of_declared {t u : Table} {c : ClassId} {ss : ClassScope}
    (hu : Declared { t with current := c } ss u) (hss : ∀ s ∈ ss, HasThis s) :
    ScopesGrow t c 1 u where
  same := by rw [hu]
  grows x := by
    by_cases hxc : x = c
    · refine ⟨ss, ?_, hss, fun hout => ?_⟩
      · rw [hu, hxc]
        simp
      · rw [hxc] at hout
        exact absurd hout (by simp)
    · refine ⟨[], ?_, by simp, fun _ => rfl⟩
      rw [hu]
      simp [Function.update_of_ne hxc]

theorem ScopesGrow.trans {t u v : Table} {c : ClassId} {n : Nat} (h : ScopesGrow t c 1 u)
    (h' : ScopesGrow u (c + 1) n v) : ScopesGrow t c (n + 1) v where
  same := by rw [h'.same, h.same]
  grows x := by
    obtain ⟨ss, hu, hss, hlt⟩ := h.grows x
    obtain ⟨ss', hv, hss', hlt'⟩ := h'.grows x
    refine ⟨ss ++ ss', by rw [hv, hu, List.append_assoc], fun s hs => ?_, fun hx => ?_⟩
    · exact (List.mem_append.mp hs).elim (hss s) (hss' s)
    · rw [hlt (hx.imp_right fun h => Nat.le_trans (Nat.add_le_add_left (Nat.le_add_left 1 n) c) h),
        hlt' (hx.imp Nat.lt_succ_of_lt fun h => by rwa [Nat.add_assoc, Nat.add_comm 1])]
      rfl

theorem visitClassDefs_builds (cds : List (ClassDef Parsed)) (c : ClassId) {t : Table}
    (hinner : t.inner = [])
    (hhead : ∀ i < cds.length, (t.chain (c + i)).head? = some (c + i))
    (hord : ∀ cd ∈ cds,
      (cd.fields.flatMap (Field.marks id)).Pairwise fun a b => a.loc < b.loc) :
    Builds (visitClassDefs cds c) t (fun _ u => ScopesGrow t c cds.length u)
      (ClassesBuilt t c cds) := by
  induction cds generalizing c t with
  | nil =>
    refine builds_pure ⟨rfl, fun x => ⟨[], by simp⟩⟩ ⟨rfl, ?_⟩
    rintro i cd cd' hcd
    cases hcd
  | cons cd cds ih =>
    have hmodify : Builds (Cmd.modify fun t => { t with current := c }) t
        (fun _ u => u = { t with current := c }) fun _ _ => True := by
      unfold Builds
      rw [Cmd.wp_modify]
      exact ⟨rfl, fun hu => ⟨hu, trivial⟩⟩
    apply hmodify.bind
    rintro _ u rfl
    refine Builds.bind (visitFields_builds (t := { t with current := c }) cd.fields hinner
      (by simpa using hhead 0 (by simp)) (hord cd List.mem_cons_self)) ?_
    rintro fields u ⟨ss, hu, hss⟩
    have hgrow := scopesGrow_of_declared hu hss
    refine Builds.bind (ih (c + 1) (by rw [hu]; exact hinner) ?_
      fun x hx => hord x (List.mem_cons_of_mem cd hx)) ?_
    · intro i hi
      have := hhead (i + 1) (by simpa using hi)
      rw [hgrow.same]
      simpa [Nat.add_assoc, Nat.add_comm 1] using this
    rintro cds' v hgrow'
    refine builds_pure (hgrow.trans hgrow') ?_
    rintro ⟨hlen, hbuilt⟩ ⟨hdecl, hfields, hnames⟩ -
    have hglobals : u.globals = t.globals := by rw [hu]
    have hvc : v.scopes c = u.scopes c := by
      obtain ⟨ss', hv, -, hlt⟩ := hgrow'.grows c
      rw [hv, hlt (Or.inl (Nat.lt_succ_self c)), List.append_nil]
    refine ⟨by simp [hlen], ?_⟩
    intro i x x' hx hx'
    cases i with
    | zero =>
      obtain rfl := Option.some_inj.mp hx
      obtain rfl := Option.some_inj.mp hx'
      refine ⟨⟨rfl, rfl, hfields⟩, ?_, ?_⟩
      · rw [Nat.add_zero, hvc]
        exact hdecl.scopes
      · rw [Nat.add_zero, hvc]
        exact hnames
    | succ i =>
      obtain ⟨hclass, hscope, hnodup⟩ := hbuilt i x x' hx hx'
      have hindex : c + 1 + i = c + (i + 1) := by rw [Nat.add_assoc, Nat.add_comm 1]
      rw [hindex] at hclass hscope hnodup
      have hut : u.scopes (c + (i + 1)) = t.scopes (c + (i + 1)) := by
        rw [hu]
        simp [Function.update_of_ne (Nat.ne_of_gt (Nat.lt_add_of_pos_right (Nat.succ_pos i)))]
      rw [hut] at hscope hnodup
      rw [hglobals] at hclass
      exact ⟨hclass, hscope, hnodup⟩

/-! ## checkOverride -/

theorem overrideError_ok (chain : ClassId → List ClassId) {s t : Symbol} (hs : HasThis s)
    (ht : HasThis t) :
    ∃ e, overrideError chain s t = .ok e ∧ (e = none → ∃ f g, s = .func f ∧ t = .func g ∧
      f.statik = false ∧ g.statik = false ∧ f.type.compatible chain g.type = .ok true) := by
  cases t with
  | var w => cases s <;> exact ⟨_, rfl, by simp⟩
  | func g =>
    cases s with
    | var v => exact ⟨_, rfl, by simp⟩
    | func f =>
      unfold overrideError
      simp only
      split
      · exact ⟨_, rfl, by simp⟩
      · next hstatik =>
        simp only [Bool.or_eq_true, not_or, Bool.not_eq_true] at hstatik
        obtain ⟨a, as, hf⟩ := List.exists_cons_of_ne_nil (hs hstatik.1)
        obtain ⟨b, bs, hg⟩ := List.exists_cons_of_ne_nil (ht hstatik.2)
        have hcompat : ∃ b, f.type.compatible chain g.type = .ok b := by
          unfold FuncType.compatible
          split
          · exact ⟨_, rfl⟩
          · simp only [hf, hg]
            exact ⟨_, rfl⟩
        obtain ⟨b, hb⟩ := hcompat
        rw [hb]
        cases b with
        | false => exact ⟨_, rfl, by simp⟩
        | true => exact ⟨_, rfl, fun _ => ⟨f, g, rfl, rfl, hstatik.1, hstatik.2, hb⟩⟩

/-- A symbol with a name that an ancestor knows overrides a method. -/
def Overrides (chain : ClassId → List ClassId) (found : Option Symbol) (s : Symbol) : Prop :=
  ∀ t, found = some t → ∃ f g, s = .func f ∧ t = .func g ∧ f.statik = false ∧ g.statik = false ∧
    f.type.compatible chain g.type = .ok true

theorem checkSymbols_ok (chain : ClassId → List ClassId) {find : String → Option Symbol}
    (hfind : ∀ name t, find name = some t → HasThis t) {syms : ClassScope}
    (hsyms : ∀ s ∈ syms, HasThis s) :
    ∃ kept errors, checkSymbols chain find syms = .ok (kept, errors) ∧ (∀ s ∈ kept, HasThis s) ∧
      (errors = [] → kept = syms ∧ ∀ s ∈ syms, Overrides chain (find s.name) s) := by
  induction syms with
  | nil => exact ⟨[], [], rfl, by simp, by simp⟩
  | cons s syms ih =>
    rw [List.forall_mem_cons] at hsyms
    obtain ⟨kept, errors, hrest, hkept, hok⟩ := ih hsyms.2
    rw [checkSymbols]
    cases hf : find s.name with
    | none =>
      refine ⟨s :: kept, errors, by simp [hrest], ?_, fun he => ?_⟩
      · rw [List.forall_mem_cons]
        exact ⟨hsyms.1, hkept⟩
      · obtain ⟨rfl, hall⟩ := hok he
        refine ⟨rfl, ?_⟩
        rw [List.forall_mem_cons]
        refine ⟨?_, hall⟩
        intro t ht
        rw [hf] at ht
        cases ht
    | some t =>
      obtain ⟨e, he, hnone⟩ := overrideError_ok chain hsyms.1 (hfind _ _ hf)
      cases e with
      | some e => exact ⟨kept, e :: errors, by simp [he, hrest], hkept, by simp⟩
      | none =>
        refine ⟨s :: kept, errors, by simp [he, hrest], ?_, fun herr => ?_⟩
        · rw [List.forall_mem_cons]
          exact ⟨hsyms.1, hkept⟩
        · obtain ⟨rfl, hall⟩ := hok herr
          refine ⟨rfl, ?_⟩
          rw [List.forall_mem_cons]
          refine ⟨?_, hall⟩
          intro t' ht'
          rw [hf] at ht'
          obtain rfl := Option.some_inj.mp ht'
          exact hnone rfl

/-- Every symbol of a class that has the name of one of an ancestor overrides it. -/
def OverrideOk (chain : ClassId → List ClassId) (scopes : ClassId → ClassScope) (c : ClassId) :
    Prop :=
  ∀ s ∈ scopes c, Overrides chain (lookupVisible scopes s.name (chain c).tail) s

theorem checkClass_ok (chain : ClassId → List ClassId) {s : Checks}
    (hthis : ∀ c, ∀ x ∈ s.scopes c, HasThis x) (c : ClassId) :
    ∃ s', checkClass chain s c = .ok s' ∧ (∀ c, ∀ x ∈ s'.scopes c, HasThis x) ∧
      (s'.errors = [] → s.errors = [] ∧ ((∀ c, s.check c = true → OverrideOk chain s.scopes c) →
        s'.scopes = s.scopes ∧ OverrideOk chain s.scopes c ∧
        ∀ c, s'.check c = true → OverrideOk chain s.scopes c)) := by
  unfold checkClass
  split
  · next hcheck => exact ⟨s, rfl, hthis, fun he => ⟨he, fun hall => ⟨rfl, hall c hcheck, hall⟩⟩⟩
  · cases htail : (chain c).tail with
    | nil =>
      refine ⟨s, rfl, hthis, fun he => ⟨he, fun hall => ⟨rfl, ?_, hall⟩⟩⟩
      intro x _ t ht
      rw [htail] at ht
      cases ht
    | cons p ps =>
      simp only
      obtain ⟨kept, errors, hsyms, hkept, hok⟩ := checkSymbols_ok chain
       
        (fun name t ht => by
          obtain ⟨d, -, hd, -⟩ := TypeCheck.lookupVisible_mem ht
          exact hthis d t hd) (hthis c)
      rw [hsyms]
      refine ⟨_, rfl, ?_, fun he => ?_⟩
      · intro d x hx
        by_cases hdc : d = c
        · simp only [hdc, Function.update_self] at hx
          exact hkept x hx
        · simp only [Function.update_of_ne hdc] at hx
          exact hthis d x hx
      · obtain ⟨hs, herr⟩ := List.append_eq_nil_iff.mp he
        obtain ⟨rfl, hover⟩ := hok herr
        have hc : OverrideOk chain s.scopes c := by
          intro x hx
          rw [htail]
          exact hover x hx
        refine ⟨hs, fun hall => ⟨Function.update_eq_self c s.scopes, hc, fun d hd => ?_⟩⟩
        by_cases hdc : d = c
        · rw [hdc]
          exact hc
        · simp only [Function.update_of_ne hdc] at hd
          exact hall d hd

theorem checkClasses_ok (chain : ClassId → List ClassId) (cs : List ClassId) {s : Checks}
    (hthis : ∀ c, ∀ x ∈ s.scopes c, HasThis x) :
    ∃ s', checkClasses chain s cs = .ok s' ∧
      (s'.errors = [] → s.errors = [] ∧ ((∀ c, s.check c = true → OverrideOk chain s.scopes c) →
        s'.scopes = s.scopes ∧ ∀ c ∈ cs, OverrideOk chain s.scopes c)) := by
  induction cs generalizing s with
  | nil => exact ⟨s, rfl, fun he => ⟨he, fun _ => ⟨rfl, by simp⟩⟩⟩
  | cons c cs ih =>
    obtain ⟨s₁, hstep, hthis₁, hok₁⟩ := checkClass_ok chain hthis c
    obtain ⟨s', hrun, hok⟩ := ih hthis₁
    refine ⟨s', by simp [checkClasses, hstep, hrun], fun he => ?_⟩
    obtain ⟨he₁, hrest⟩ := hok he
    obtain ⟨hs, hfirst⟩ := hok₁ he₁
    refine ⟨hs, fun hall => ?_⟩
    obtain ⟨hscopes, hc, hall₁⟩ := hfirst hall
    rw [hscopes] at hrest
    obtain ⟨hscopes', hcs⟩ := hrest hall₁
    rw [List.forall_mem_cons]
    exact ⟨hscopes', hc, hcs⟩

/-! ## Chains -/

/-- The chain of each class is that of its parent behind the class. -/
structure Chains (n : Nat) (parent : ClassId → Option ClassId) (chain : ClassId → List ClassId) :
    Prop where
  eq : ∀ c < n, chain c = c :: (parent c).elim [] chain
  lt : ∀ c p, parent c = some p → p < n
  ends : WellFounded fun p c => parent c = some p

theorem createType_unique {parent : ClassId → Option ClassId} {fuel fuel' : Nat} {c : ClassId}
    {l l' : List ClassId} (h : createType parent fuel c = .ok l)
    (h' : createType parent fuel' c = .ok l') : l = l' := by
  induction fuel generalizing fuel' c l l' with
  | zero => cases h
  | succ fuel ih =>
    cases fuel' with
    | zero => cases h'
    | succ fuel' =>
      rw [createType] at h h'
      cases hp : parent c with
      | none =>
        simp only [hp, Except.ok.injEq] at h h'
        rw [← h, ← h']
      | some p =>
        simp only [hp] at h h'
        split at h
        · next cs hcs =>
          split at h'
          · next cs' hcs' =>
            rw [Except.ok.injEq] at h h'
            rw [← h, ← h', ih hcs hcs']
          · cases h'
        · cases h

theorem createTypes_spec {parent : ClassId → Option ClassId} {order : ClassId → Int}
    {cs : List ClassId} {chain : ClassId → List ClassId}
    (h : createTypes parent order cs = .ok chain) {c : ClassId} (hc : c ∈ cs) :
    createType parent ((order c).toNat + 1) c = .ok (chain c) := by
  induction cs generalizing chain with
  | nil => cases hc
  | cons d cs ih =>
    rw [createTypes] at h
    split at h
    · next l chain' hl hchain =>
      obtain rfl := Except.ok.inj h
      by_cases hcd : c = d
      · rw [hcd, Function.update_self, hl]
      · rw [Function.update_of_ne hcd]
        exact ih hchain ((List.mem_cons.mp hc).resolve_left hcd)
    · cases h
    · cases h

theorem chains_of_createTypes {parent : ClassId → Option ClassId} {order : ClassId → Int} {n : Nat}
    {chain : ClassId → List ClassId} (hlt : ∀ c p, parent c = some p → p < n)
    (hends : WellFounded fun p c => parent c = some p)
    (h : createTypes parent order (List.range n) = .ok chain) : Chains n parent chain := by
  refine ⟨fun c hc => ?_, hlt, hends⟩
  have htype := createTypes_spec h (List.mem_range.mpr hc)
  rw [createType] at htype
  cases hp : parent c with
  | none =>
    simp only [hp, Except.ok.injEq] at htype
    exact htype.symm
  | some p =>
    simp only [hp] at htype
    split at htype
    · next cs hcs =>
      have hparent := createTypes_spec h (List.mem_range.mpr (hlt c p hp))
      rw [← Except.ok.inj htype, createType_unique hcs hparent]
      rfl
    · cases htype

/-! ## visitTopLevel -/

theorem names_of_declareClasses (cds : List (ClassDef Parsed)) (c : ClassId) (globals : Globals)
    (h : (declareClasses cds c globals).2 = []) :
    (cds.map ClassDef.name).Nodup ∧ ∀ cd ∈ cds, globals.lookupClass cd.name = none := by
  induction cds generalizing c globals with
  | nil => simp
  | cons cd cds ih =>
    unfold declareClasses at h
    split at h
    · simp at h
    · next hnone =>
      rw [Bool.not_eq_true, Option.isSome_eq_false_iff, Option.isNone_iff_eq_none] at hnone
      obtain ⟨hnames, hfresh⟩ := ih _ _ h
      simp only [lookupClass_append, Option.or_eq_none_iff] at hfresh
      rw [List.map_cons, List.nodup_cons, List.forall_mem_cons]
      refine ⟨⟨fun hmem => ?_, hnames⟩, hnone, fun x hx => (hfresh x hx).1⟩
      obtain ⟨x, hx, hname⟩ := List.mem_map.mp hmem
      have hno := (hfresh x hx).2
      rw [hname, if_pos rfl] at hno
      cases hno

/-- The program without an error, as `BuildSym` leaves it. -/
structure BuiltRight (program : Program) (r : Result) : Prop where
  names : (program.classes.map ClassDef.name).Nodup
  globals : r.globals = declared program.classes
  parentName : r.parentName = parentNames program.classes
  parents : ∀ c, (r.parentName c).isSome = true →
    (getParent r.globals r.parentName c).isSome = true
  chains : Chains program.classes.length (getParent r.globals r.parentName) r.chain
  length : r.classes.length = program.classes.length
  built : ∀ c cd cd', program.classes[c]? = some cd → r.classes[c]? = some cd' →
    ClassBuilt r.globals c cd cd' ∧ r.scopes c = cd'.fields.map declares ∧
    ((r.scopes c).map Symbol.name).Nodup
  others : ∀ c, program.classes.length ≤ c → r.scopes c = []
  overrides : ∀ c < program.classes.length, OverrideOk r.chain r.scopes c

/-- The parents, where nothing is reported. -/
theorem AllChecked.kept {cds : List (ClassDef Parsed)} {h : Inheritance} (hc : AllChecked cds h)
    (herrors : h.errors = []) :
    h.parentName = parentNames cds ∧ ∀ c, (h.parentName c).isSome = true →
      (getParent (declared cds) h.parentName c).isSome = true := by
  have hnames : h.parentName = parentNames cds := by
    funext c
    rw [hc.names, Inheritance.reported, herrors]
    rfl
  refine ⟨hnames, fun c hsome => ?_⟩
  by_contra hnone
  rw [Bool.not_eq_true, Option.isSome_eq_false_iff, Option.isNone_iff_eq_none] at hnone
  rw [hnames] at hsome hnone
  have hmem := hc.mem_errors.mpr (report_notFound.mpr ⟨hsome, hnone⟩)
  rw [herrors] at hmem
  cases hmem

theorem visitTopLevel_ok (program : Program) :
    ∃ r, visitTopLevel program = .ok r ∧ (r.errors = [] → BuiltRight program r) := by
  have hlt : ∀ name d, (declared program.classes).lookupClass name = some d →
      d < program.classes.length := fun _ _ hd => lookupClass_lt hd
  obtain ⟨h, hparents, hc⟩ := checkParents_ok hlt (List.range program.classes.length)
    (checked_undetached program.classes) (by simpa using List.nodup_range)
    (fun c hc => List.mem_range.mp hc)
  rw [List.nil_append] at hc
  have hall : AllChecked program.classes h := hc
  obtain ⟨chain, htypes⟩ := createTypes_ends (fun c d hd => hall.down hd)
    (List.range program.classes.length)
  have hparentLt : ∀ c p, getParent (declared program.classes) h.parentName c = some p →
      p < program.classes.length := by
    intro c p hp
    obtain ⟨name, -, hlook⟩ := Option.bind_eq_some_iff.mp hp
    exact hlt name p hlook
  have hchains := chains_of_createTypes hparentLt
    (wellFounded_of_down fun c d hd => hall.down hd) htypes
  let start : Table := ⟨declared program.classes, chain, fun _ => [], 0, [],
    (declareClasses program.classes 0 []).2 ++ h.errors.map Prod.snd⟩
  have hvisit := visitClassDefs_builds program.classes 0 (t := start) rfl
    (by
      intro i hi
      rw [Nat.zero_add, show start.chain = chain from rfl, hchains.eq i hi]
      rfl)
    (fun cd hcd => (List.pairwise_flatMap.mp program.ordered).1 cd hcd)
  unfold Builds Cmd.Wp at hvisit
  cases hrun : visitClassDefs program.classes 0 start with
  | fail e u =>
    rw [hrun] at hvisit
    exact hvisit.elim
  | stop =>
    rw [hrun] at hvisit
    exact hvisit.elim
  | ok classes t =>
    rw [hrun] at hvisit
    obtain ⟨hgrow, hbuilt⟩ := hvisit
    have hthis : ∀ c, ∀ x ∈ t.scopes c, HasThis x := by
      intro c x hx
      obtain ⟨ss, hss, hall, -⟩ := hgrow.grows c
      rw [hss] at hx
      exact hall x (by simpa [start] using hx)
    obtain ⟨s, hchecks, hok⟩ := checkClasses_ok chain
      ((List.range program.classes.length).flatMap fun c => (chain c).reverse)
      (s := ⟨t.scopes, fun _ => false, t.errors⟩) hthis
    refine ⟨⟨classes, declared program.classes, h.parentName, chain, s.scopes,
      mainFunction s.scopes (mainClass program.classes), s.errors ++
        if isMainClass s.scopes (mainClass program.classes) then [] else [.NoMainClass]⟩, ?_, ?_⟩
    · unfold visitTopLevel
      simp only
      rw [show (declareClasses program.classes 0 []).1 = declared program.classes from rfl]
      rw [show (⟨fun c => program.classes[c]?.bind ClassDef.parent, fun _ => -1, []⟩ : Inheritance) =
        undetached program.classes from rfl, hparents]
      simp only
      rw [htypes]
      simp only
      rw [hrun]
      simp only
      rw [checkOverrides, hchecks]
    · intro herrors
      obtain ⟨hs, -⟩ := List.append_eq_nil_iff.mp herrors
      obtain ⟨ht, hover⟩ := hok hs
      obtain ⟨hscopes, hover⟩ := hover (by simp)
      obtain ⟨hstart, hbuilt⟩ := hbuilt ht
      obtain ⟨hdecl, hreported⟩ := List.append_eq_nil_iff.mp hstart
      obtain ⟨hnames, hsome⟩ := hall.kept (List.map_eq_nil_iff.mp hreported)
      simp only at hscopes
      refine ⟨(names_of_declareClasses _ _ _ hdecl).1, rfl, hnames, hsome, hchains, hbuilt.length, ?_,
        ?_, ?_⟩
      · intro c cd cd' hcd hcd'
        obtain ⟨hclass, hscope, hnodup⟩ := hbuilt.built c cd cd' hcd hcd'
        rw [Nat.zero_add] at hclass hscope hnodup
        simp only [hscopes]
        refine ⟨hclass, ?_, hnodup (by simp [start])⟩
        rw [hscope]
        rfl
      · intro c hle
        obtain ⟨ss, hss, -, hnil⟩ := hgrow.grows c
        simp only [hscopes, hss, hnil (Or.inr (by rwa [Nat.zero_add]))]
        rfl
      · intro c hlt
        simp only [hscopes]
        refine hover c (List.mem_flatMap.mpr ⟨c, List.mem_range.mpr hlt, ?_⟩)
        rw [hchains.eq c hlt]
        simp

/-! ## The symbols of a program without an error -/

section

variable {program : Program} {r : Result}

/-- A symbol stands for a field of its class. -/
theorem BuiltRight.field_of_symbol (hb : BuiltRight program r) {c : ClassId} {s : Symbol}
    (hs : s ∈ r.scopes c) :
    ∃ cd cd', program.classes[c]? = some cd ∧ r.classes[c]? = some cd' ∧
      ∃ f ∈ cd.fields, ∃ f' ∈ cd'.fields, FieldBuilt r.globals c f f' ∧ declares f' = s := by
  have hlt : c < program.classes.length := by
    by_contra hle
    rw [hb.others c (Nat.not_lt.mp hle)] at hs
    cases hs
  have hcd := List.getElem?_eq_getElem hlt
  have hcd' := List.getElem?_eq_getElem (hb.length.symm ▸ hlt)
  obtain ⟨hclass, hscope, -⟩ := hb.built c _ _ hcd hcd'
  rw [hscope] at hs
  obtain ⟨f', hf', rfl⟩ := List.mem_map.mp hs
  obtain ⟨i, hi, rfl⟩ := List.getElem_of_mem hf'
  have hlen := hclass.fields.length_eq
  refine ⟨_, _, hcd, hcd', _, List.getElem_mem (hlen ▸ hi), _, hf', ?_, rfl⟩
  exact hclass.fields.get (hlen ▸ hi) hi

theorem BuiltRight.var (hb : BuiltRight program r) {c : ClassId} {v : Variable}
    (hv : .var v ∈ r.scopes c) : v.definedIn = some .CLASS ∧
      ∃ cd, program.classes[c]? = some cd ∧ .define v.loc ∈ cd.fields.flatMap (Field.marks id) := by
  obtain ⟨cd, cd', hcd, -, f, hf, f', -, hbuilt, hdecl⟩ := hb.field_of_symbol hv
  cases f' with
  | method m => cases hdecl
  | var d' =>
    obtain rfl := Symbol.var.inj hdecl
    cases f with
    | method m => exact hbuilt.elim
    | var d =>
      rw [hbuilt.1]
      exact ⟨rfl, cd, hcd, List.mem_flatMap.mpr ⟨_, hf, List.mem_singleton.mpr rfl⟩⟩

theorem BuiltRight.func (hb : BuiltRight program r) {c : ClassId} {f : Function}
    (hf : .func f ∈ r.scopes c) : f.definedIn = some c := by
  obtain ⟨cd, cd', -, -, x, -, x', -, hbuilt, hdecl⟩ := hb.field_of_symbol hf
  cases x' with
  | var d => cases hdecl
  | method m' =>
    obtain rfl := Symbol.func.inj hdecl
    cases x with
    | var d => exact hbuilt.elim
    | method m => exact hbuilt.definedIn

theorem BuiltRight.nodup_names (hb : BuiltRight program r) (c : ClassId) :
    ((r.scopes c).map Symbol.name).Nodup := by
  by_cases hlt : c < program.classes.length
  · exact (hb.built c _ _ (List.getElem?_eq_getElem hlt)
      (List.getElem?_eq_getElem (hb.length.symm ▸ hlt))).2.2
  · rw [hb.others c (Nat.not_lt.mp hlt)]
    exact List.nodup_nil

/-- No symbol stands in two classes. -/
theorem BuiltRight.disjoint (hb : BuiltRight program r) {c d : ClassId} {s : Symbol}
    (hc : s ∈ r.scopes c) (hd : s ∈ r.scopes d) : c = d := by
  cases s with
  | func f => exact Option.some_inj.mp ((hb.func hc).symm.trans (hb.func hd))
  | var v =>
    obtain ⟨-, cd, hcd, hmark⟩ := hb.var hc
    obtain ⟨-, cd', hcd', hmark'⟩ := hb.var hd
    obtain ⟨hi, rfl⟩ := List.getElem?_eq_some_iff.mp hcd
    obtain ⟨hj, rfl⟩ := List.getElem?_eq_some_iff.mp hcd'
    have hpair := List.pairwise_iff_getElem.mp (List.pairwise_flatMap.mp program.ordered).2
    rcases Nat.lt_trichotomy c d with hlt | heq | hlt
    · exact absurd (hpair c d hi hj hlt _ hmark _ hmark') (Nat.lt_irrefl _)
    · exact heq
    · exact absurd (hpair d c hj hi hlt _ hmark' _ hmark) (Nat.lt_irrefl _)

/-- Induction along the parents. -/
theorem Chains.induction {n : Nat} {parent : ClassId → Option ClassId}
    {chain : ClassId → List ClassId} (h : Chains n parent chain) {P : ClassId → Prop}
    (hP : ∀ c < n, (∀ p, parent c = some p → P p) → P c) : ∀ c < n, P c := by
  intro c
  induction c using h.ends.induction with
  | _ c ih => exact fun hc => hP c hc fun p hp => ih p hp (h.lt c p hp)

/-- The chains of the ancestors are the rests of a chain. -/
theorem Chains.suffix {n : Nat} {parent : ClassId → Option ClassId}
    {chain : ClassId → List ClassId} (h : Chains n parent chain) {c : ClassId} (hc : c < n) :
    ∀ d ∈ chain c, d < n ∧ chain d <:+ chain c := by
  refine h.induction (P := fun c => ∀ d ∈ chain c, d < n ∧ chain d <:+ chain c) ?_ c hc
  intro c hc ih d hd
  rw [h.eq c hc] at hd
  rcases List.mem_cons.mp hd with rfl | hd
  · exact ⟨hc, List.suffix_refl _⟩
  · cases hp : parent c with
    | none =>
      rw [hp] at hd
      cases hd
    | some p =>
      rw [hp] at hd
      obtain ⟨hlt, hsuffix⟩ := ih p hp d hd
      refine ⟨hlt, hsuffix.trans ?_⟩
      rw [h.eq c hc, hp]
      exact List.suffix_cons c _

theorem Chains.not_mem {n : Nat} {parent : ClassId → Option ClassId}
    {chain : ClassId → List ClassId} (h : Chains n parent chain) {c p : ClassId} (hc : c < n)
    (hp : parent c = some p) : c ∉ chain p := by
  intro hmem
  have hle := (h.suffix (h.lt c p hp) c hmem).2.length_le
  rw [h.eq c hc, hp, List.length_cons] at hle
  exact absurd hle (Nat.not_succ_le_self _)

end

end nehcpu.decaf.BuildSym
