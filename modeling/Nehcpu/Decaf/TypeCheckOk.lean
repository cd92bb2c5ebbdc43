-- What the checker comes to: it gives each expression the type that the rules give it, it throws
-- exactly at a comparison that trips it, and a tree without an error is ready for the translater.
import Nehcpu.Decaf.Ready

namespace nehcpu.decaf

open command

/-! ## Types of values -/

/-- A type that a variable may have. -/
def Ty.sound : Ty → Bool
  | .base b => b ≠ .ERROR && b ≠ .VOID
  | .cls _ => true
  | .array t => t.sound

/-- A type without an error. -/
def ExprType.sound : ExprType → Bool
  | .ty t => t = .VOID || t.sound
  | .func _ => true

theorem Ty.sound_ne_ERROR {t : Ty} (h : t.sound) : t ≠ .ERROR := by
  rintro rfl
  simp [sound] at h

theorem Ty.sound_ne_VOID {t : Ty} (h : t.sound) : t ≠ .VOID := by
  rintro rfl
  simp [sound] at h

theorem ExprType.sound_of_ty {t : Ty} (h : t.sound) : (ExprType.ty t).sound := by
  simp [sound, h]

theorem ExprType.sound_ne_ERROR {t : ExprType} (h : t.sound) : t ≠ .ty .ERROR := by
  rintro rfl
  simp [sound, Ty.sound] at h

theorem ExprType.hasValue_of_sound {t : Ty} (h : t.sound) : (ExprType.ty t).hasValue := by
  simpa [hasValue] using Ty.sound_ne_VOID h

theorem visitType_sound (globals : Globals) (lit : TypeLiteral) :
    ((BuildSym.visitType globals lit).1 = .ERROR ∧ (BuildSym.visitType globals lit).2 ≠ []) ∨
      (BuildSym.visitType globals lit).1 = .VOID ∨ (BuildSym.visitType globals lit).1.sound := by
  induction lit with
  | typeIdent tag => cases tag <;> simp [BuildSym.visitType, Ty.sound]
  | typeClass name =>
    simp only [BuildSym.visitType]
    cases globals.lookupClass name <;> simp [Ty.sound]
  | typeArray lit ih =>
    simp only [BuildSym.visitType]
    split
    · rename_i h
      rcases ih with ih | ih | ih
      · exact .inl ⟨rfl, ih.2⟩
      · simp [ih] at h
      · exact absurd h (Ty.sound_ne_ERROR ih)
    · split
      · simp
      · rename_i h h'
        rcases ih with ih | ih | ih
        · exact absurd ih.1 h
        · exact absurd ih h'
        · exact .inr (.inr (by simpa [Ty.sound] using ih))

theorem ExprType.hasValue_of_class {t : ExprType} (h : t.isClassType) : t.hasValue := by
  cases t with
  | func f => simp [isClassType] at h
  | ty t => cases t <;> simp_all [isClassType, Ty.isClassType, hasValue]

/-! ## Scopes -/

/-- The variables of a local scope, which the statements in it define. -/
def ScopeOk (vs : List Variable) (defs : List Nat) : Prop :=
  ∀ v ∈ vs, v.definedIn = some .LOCAL ∧ v.type.sound ∧ v.loc ∈ defs

mutual

/-- The symbols and the scopes that a statement without an error has. -/
def Stmt.Scoped : Stmt Built → Prop
  | .varDef d => d.symbol.definedIn = some .LOCAL ∧ d.symbol.loc = d.loc
  | .block vs stmts => ScopeOk vs stmts.defs ∧ stmts.Scoped
  | .whileLoop _ loopBody | .forLoop _ _ _ loopBody => loopBody.Scoped
  | .ifThen _ trueBranch => trueBranch.Scoped
  | .ifElse _ trueBranch falseBranch => trueBranch.Scoped ∧ falseBranch.Scoped
  | .skip | .simple _ | .breakStmt | .print _ | .ret _ => True

def Stmts.Scoped : Stmts Built → Prop
  | .nil => True
  | .cons stmt stmts => stmt.Scoped ∧ stmts.Scoped

end

/-! ## compatible -/

/-- A type is compatible with no other kind of type. -/
theorem Ty.compatible_kind {chain : ClassId → List ClassId} {s t : Ty}
    (h : s.compatible chain t) (hs : s ≠ .ERROR) (ht : t ≠ .ERROR) : s = .VOID ↔ t = .VOID := by
  cases s with
  | cls c =>
    cases t <;> simp_all [compatible]
  | array e => simp_all [compatible]
  | base b =>
    cases t <;> simp_all [compatible, isClassType]

/-- What is compatible with the type of a variable is a value. -/
theorem ExprType.hasValue_of_compatible {chain : ClassId → List ClassId} {s : ExprType} {t : Ty}
    (h : s.compatible chain (.ty t) = .ok true) (hs : s.sound) (ht : t.sound) : s.hasValue := by
  cases s with
  | func f =>
    rw [compatible, Except.ok.injEq, decide_eq_true_eq] at h
    exact absurd h (Ty.sound_ne_ERROR ht)
  | ty a =>
    rw [compatible, Except.ok.injEq] at h
    have ha : a ≠ .ERROR := fun ha => sound_ne_ERROR hs (by rw [ha])
    have hvoid := Ty.compatible_kind h ha (Ty.sound_ne_ERROR ht)
    simp only [hasValue, ne_eq, decide_not, Bool.not_eq_eq_eq_not, Bool.not_true,
      decide_eq_false_iff_not]
    exact fun hv => Ty.sound_ne_VOID ht (hvoid.mp hv)

theorem matched.symm {s t : ExprType} (h : matched s t) : matched t s := by
  rcases h with ⟨hs, ht⟩ | ⟨hs, ht⟩ | ⟨hs, ht⟩
  · exact .inl ⟨ht, hs⟩
  · exact .inr (.inl ⟨ht, hs⟩)
  · exact .inr (.inr ⟨ht, hs⟩)

/-- Types that `==` compares without an error. -/
theorem matched_of_compatible {chain : ClassId → List ClassId} {s t : ExprType}
    (h : s.compatible chain t = .ok true) (hs : s.sound) (ht : t.sound) : matched s t := by
  cases t with
  | func g =>
    cases s with
    | func f => exact .inr (.inl ⟨rfl, rfl⟩)
    | ty a =>
      rw [ExprType.compatible, Except.ok.injEq, decide_eq_true_eq] at h
      exact absurd (congrArg ExprType.ty h) (ExprType.sound_ne_ERROR hs)
  | ty b =>
    by_cases hb : b = .VOID
    · cases s with
      | func f =>
        rw [ExprType.compatible, Except.ok.injEq, decide_eq_true_eq] at h
        exact absurd (congrArg ExprType.ty h) (ExprType.sound_ne_ERROR ht)
      | ty a =>
        rw [ExprType.compatible, Except.ok.injEq] at h
        have hvoid := Ty.compatible_kind h (fun ha => ExprType.sound_ne_ERROR hs (by rw [ha]))
          (fun hb => ExprType.sound_ne_ERROR ht (by rw [hb]))
        exact .inr (.inr ⟨congrArg _ (hvoid.mpr hb), congrArg _ hb⟩)
    · have hval : b.sound := by simpa [ExprType.sound, hb] using ht
      exact .inl ⟨ExprType.hasValue_of_compatible h hs hval, ExprType.hasValue_of_sound hval⟩

theorem FuncType.compatible_throws {chain : ClassId → List ClassId} {f g : FuncType} :
    (∃ e, f.compatible chain g = .error e) ↔
      f.argList = [] ∧ g.argList = [] ∧ f.returnType.compatible chain g.returnType := by
  unfold compatible
  cases hr : f.returnType.compatible chain g.returnType with
  | false => simp
  | true =>
    cases f.argList with
    | nil => cases g.argList <;> simp
    | cons a as =>
      cases g.argList with
      | nil => simp
      | cons b bs =>
        simp only [reduceCtorEq, false_and, iff_false]
        split <;> simp

/-- A comparison trips the checker where one of the two ways of `compatible` throws. -/
theorem Comparison.trips_iff {chain : ClassId → List ClassId} {s t : ExprType} :
    (∃ e, s.compatible chain t = .error e) ∨
      (s.compatible chain t = .ok false ∧ ∃ e, t.compatible chain s = .error e) ↔
    Comparison.trips chain ⟨s, t⟩ := by
  cases s with
  | ty a => cases t <;> simp [ExprType.compatible, trips]
  | func f =>
    cases t with
    | ty b => simp [ExprType.compatible, trips]
    | func g =>
      simp only [ExprType.compatible, FuncType.compatible_throws, trips, Bool.and_eq_true,
        Bool.or_eq_true, decide_eq_true_eq]
      constructor
      · rintro (⟨hf, hg, hr⟩ | ⟨-, hg, hf, hr⟩)
        · exact ⟨⟨hf, hg⟩, .inl hr⟩
        · exact ⟨⟨hf, hg⟩, .inr hr⟩
      · rintro ⟨⟨hf, hg⟩, hr⟩
        by_cases hfg : f.returnType.compatible chain g.returnType = true
        · exact .inl ⟨hf, hg, hfg⟩
        · exact .inr ⟨by simp [FuncType.compatible, hfg], hg, hf, hr.resolve_left hfg⟩

theorem ExprType.compatible_ty (chain : ClassId → List ClassId) (s : ExprType) (t : Ty) :
    ∃ b, s.compatible chain (.ty t) = .ok b := by
  cases s <;> exact ⟨_, rfl⟩

/-! ## The rules of the checker -/

def Trips (chain : ClassId → List ClassId) (xs : List Comparison) : Prop :=
  ∃ x ∈ xs, x.trips chain

section

variable {chain : ClassId → List ClassId} {xs ys : List Comparison}

@[simp] theorem trips_nil : Trips chain [] ↔ False := by simp [Trips]

@[simp] theorem trips_append : Trips chain (xs ++ ys) ↔ Trips chain xs ∨ Trips chain ys := by
  simp [Trips, or_and_right, exists_or]

end

namespace TypeCheck

/-- `c` throws if `trips`. Where it returns, `Q` holds of what it returns, and `R` if no error has been
issued, not before either. -/
def Checks {α : Type} (c : Check α) (trips : Prop) (Q R : α → Prop) : Prop :=
  ∀ s, Cmd.Wp c (fun a t => ¬ trips ∧ Q a ∧ (t = [] → s = [] ∧ R a)) (fun _ _ => trips) False s

section

variable {α β : Type} {p q : Prop} {Q R Q' R' : α → Prop}

theorem Checks.pure {a : α} (hq : Q a) (hr : R a) :
    Checks (Pure.pure a : Check α) False Q R := by
  intro s
  rw [Cmd.wp_pure]
  exact ⟨id, hq, fun hs => ⟨hs, hr⟩⟩

theorem Checks.bind {r : Prop} {c : Check α} {f : α → Check β} {P S : β → Prop}
    (hc : Checks c p Q R) (hr : p ∨ q ↔ r)
    (hf : ∀ a, Q a → Checks (f a) q P fun b => R a → S b) : Checks (c >>= f) r P S := by
  intro s
  rw [Cmd.wp_bind, ← hr]
  apply Cmd.Wp.mono (hc s) _ (fun _ _ => .inl) id
  rintro a t ⟨hp, hq, hr⟩
  apply Cmd.Wp.mono (hf a hq t) _ (fun _ _ => .inr) id
  rintro b u ⟨hq', hb, hs⟩
  refine ⟨not_or.mpr ⟨hp, hq'⟩, hb, fun hu => ?_⟩
  obtain ⟨ht, hs⟩ := hs hu
  exact ⟨(hr ht).1, hs (hr ht).2⟩

/-- A command that does not throw, and then another one. -/
theorem Checks.quiet_bind {c : Check α} {f : α → Check β} {P S : β → Prop}
    (hc : Checks c False Q R) (hf : ∀ a, Q a → Checks (f a) p P fun b => R a → S b) :
    Checks (c >>= f) p P S :=
  hc.bind (Iff.of_eq (false_or p)) hf

theorem Checks.bind_quiet {c : Check α} {f : α → Check β} {P S : β → Prop}
    (hc : Checks c p Q R) (hf : ∀ a, Q a → Checks (f a) False P fun b => R a → S b) :
    Checks (c >>= f) p P S :=
  hc.bind (Iff.of_eq (or_false p)) hf

theorem Checks.imp {c : Check α} (h : Checks c p Q R) (hp : p ↔ q) (hQ : ∀ a, Q a → Q' a)
    (hR : ∀ a, Q a → R a → R' a) : Checks c q Q' R' := by
  intro s
  rw [← hp]
  apply Cmd.Wp.mono (h s) _ (fun _ _ => id) id
  rintro a t ⟨hn, hq, hr⟩
  exact ⟨hn, hQ a hq, fun ht => ⟨(hr ht).1, hR a hq (hr ht).2⟩⟩

theorem checks_issueErrors (es : List DecafError) :
    Checks (issueErrors es) False (fun _ => True) fun _ => es = [] := by
  intro s
  simp only [issueErrors, Cmd.wp_modify, List.append_eq_nil_iff]
  exact ⟨id, trivial, id⟩

theorem checks_issueError (e : DecafError) :
    Checks (issueError e) False (fun _ => True) fun _ => False :=
  (checks_issueErrors [e]).imp Iff.rfl (fun _ => id) fun _ _ h => List.cons_ne_nil e [] h

theorem checks_issueIf (P : Prop) [Decidable P] (e : DecafError) :
    Checks (issueIf P e) False (fun _ => True) fun _ => ¬ P := by
  unfold issueIf
  split
  · exact (checks_issueError e).imp Iff.rfl (fun _ => id) fun _ _ h => h.elim
  · rename_i h
    exact .pure trivial h

/-- What comes after an error need not be looked at. -/
theorem Checks.error {e : DecafError} {a : α} (h : Q a) :
    Checks (do issueError e; Pure.pure a) False Q R :=
  (checks_issueError e).quiet_bind fun _ _ => Checks.pure h fun hn => hn.elim

theorem checks_orThrow (x : Except Fault α) :
    Checks (orThrow x) (∃ e, x = .error e) (fun a => x = .ok a) fun _ => True := by
  intro s
  cases x with
  | error e => exact ⟨e, rfl⟩
  | ok a =>
    simp only [orThrow, Cmd.wp_ret, reduceCtorEq, exists_false, not_false_eq_true, true_and,
      and_true, imp_self]

end

/-! ## What is open -/

structure FuncOk (k : Known) (f : Function) : Prop where
  known : f ∈ k.methods
  result : (ExprType.ty f.type.returnType).sound
  args : ∀ t ∈ f.type.argList, t.sound

/-- The symbols in the scopes of a program without an error. -/
structure EnvOk (env : Env) (k : Known) : Prop where
  locals : ∀ vs ∈ env.locals, ∀ v ∈ vs, v.definedIn = some .LOCAL ∧ v.type.sound
  formals : ∀ v ∈ env.formals, v.definedIn = some .FORMAL ∧ v.type.sound
  vars : ∀ c v, .var v ∈ env.scopes c → v.definedIn = some .CLASS ∧ v.type.sound
  funcs : ∀ c f, .func f ∈ env.scopes c → FuncOk k f
  classes : ∀ name c, env.globals.lookupClass name = some c → c < k.classes
  statik : env.currentFunction.statik = k.statik
  result : (ExprType.ty env.currentFunction.type.returnType).sound

/-- The formals are defined, and where a name is used, the local variables that stand before. -/
def Covers (env : Env) (defined : List Nat) (marks : List Mark) : Prop :=
  (∀ v ∈ env.formals, v.loc ∈ defined) ∧
    ∀ m, .use m ∈ marks → ∀ vs ∈ env.locals, ∀ v ∈ vs, v.loc ≤ m → v.loc ∈ defined

theorem covers_append {env : Env} {defined : List Nat} {xs ys : List Mark} :
    Covers env defined (xs ++ ys) ↔ Covers env defined xs ∧ Covers env defined ys := by
  simp only [Covers, List.mem_append]
  grind

theorem lookupLocals_spec {name : String} {loc : Nat} {locals : List (List Variable)}
    {v : Variable} (h : lookupLocals name loc locals = some v) :
    ∃ vs ∈ locals, v ∈ vs ∧ v.loc ≤ loc := by
  induction locals with
  | nil => simp [lookupLocals] at h
  | cons vs locals ih =>
    have hlater : lookupLocals name loc locals = some v →
        ∃ vs' ∈ vs :: locals, v ∈ vs' ∧ v.loc ≤ loc := fun h => by
      obtain ⟨vs', hvs, hv⟩ := ih h
      exact ⟨vs', List.mem_cons_of_mem _ hvs, hv⟩
    simp only [lookupLocals] at h
    split at h
    · rename_i w hw
      split at h
      · exact hlater h
      · rename_i hle
        obtain rfl := Option.some.inj h
        exact ⟨vs, List.mem_cons_self, List.mem_of_find?_eq_some hw, by omega⟩
    · exact hlater h

theorem lookupVisible_mem {scopes : ClassId → ClassScope} {name : String} {cs : List ClassId}
    {sym : Symbol} (h : lookupVisible scopes name cs = some sym) :
    ∃ c ∈ cs, sym ∈ scopes c ∧ sym.name = name := by
  induction cs with
  | nil => simp [lookupVisible] at h
  | cons c cs ih =>
    simp only [lookupVisible] at h
    split at h
    · rename_i s hs
      obtain rfl := Option.some.inj h
      exact ⟨c, List.mem_cons_self, List.mem_of_find?_eq_some hs, by
        simpa using List.find?_some hs⟩
    · obtain ⟨d, hd, hs⟩ := ih h
      exact ⟨d, List.mem_cons_of_mem _ hd, hs⟩

section

variable {env : Env} {k : Known} {defined : List Nat}

/-- A variable that a name without an owner stands for. -/
theorem EnvOk.found_var (h : EnvOk env k) {loc : Nat} (hc : Covers env defined [.use loc])
    {name : String} {v : Variable} (hf : env.lookupBeforeLocation name loc = some (.var v)) :
    v.type.sound ∧ (((v.definedIn = some .LOCAL ∨ v.definedIn = some .FORMAL) ∧ v.loc ∈ defined) ∨
      v.definedIn = some .CLASS) := by
  simp only [Env.lookupBeforeLocation] at hf
  split at hf
  · rename_i w hw
    obtain rfl := Found.var.inj (Option.some.inj hf)
    obtain ⟨vs, hvs, hv, hle⟩ := lookupLocals_spec hw
    obtain ⟨hin, ht⟩ := h.locals vs hvs w hv
    exact ⟨ht, .inl ⟨.inl hin, hc.2 loc List.mem_cons_self vs hvs w hv hle⟩⟩
  · split at hf
    · rename_i w hw
      obtain rfl := Found.var.inj (Option.some.inj hf)
      have hv := List.mem_of_find?_eq_some hw
      obtain ⟨hin, ht⟩ := h.formals w hv
      exact ⟨ht, .inl ⟨.inr hin, hc.1 w hv⟩⟩
    · split at hf
      · rename_i w hw
        obtain rfl := Found.var.inj (Option.some.inj hf)
        obtain ⟨c, -, hv, -⟩ := lookupVisible_mem hw
        obtain ⟨hin, ht⟩ := h.vars c w hv
        exact ⟨ht, .inr hin⟩
      · simp at hf
      · cases hl : env.globals.lookupClass name <;> simp [hl] at hf

/-- What a visited expression is like where no error has been issued. -/
def Kept (node : Note) (ready : Prop) (xs ys : List Comparison) : Prop :=
  node.type.sound ∧ (node.isClass = false → ready) ∧ xs = ys

theorem visitThis_checks (h : EnvOk env k) (loc : Nat) : Checks (visitThis env loc) False
    (fun e => e.node.type = (if env.currentFunction.statik then .ty .ERROR else .ty (.cls env.cls)) ∧
      e.node.isClass = false)
    fun e => Kept e.node (e.Ready k defined) e.compared [] := by
  unfold visitThis
  by_cases hs : env.currentFunction.statik = true
  · simp only [if_pos hs]
    exact .error ⟨rfl, rfl⟩
  · simp only [if_neg hs]
    apply Checks.pure ⟨rfl, rfl⟩
    refine ⟨by simp [Expr.node, ExprType.sound, Ty.sound], fun _ => ?_, rfl⟩
    rw [h.statik] at hs
    simp [Expr.Ready, ExprType.hasValue, hs]

theorem visitIdent_checks (h : EnvOk env k) {loc : Nat} (hc : Covers env defined [.use loc])
    (u : Bool) (name : String) : Checks (visitIdent env u loc name) False
    (fun e => e.node.type = foundType u (env.lookupBeforeLocation name loc) ∧
      e.node.isClass = (u && foundClass (env.lookupBeforeLocation name loc)))
    fun e => Kept e.node (e.Ready k defined) e.compared [] := by
  unfold visitIdent
  generalize hf : env.lookupBeforeLocation name loc = found
  have hfalse : (Note.fresh loc).isClass = (u && false) := (Bool.and_false u).symm
  cases found with
  | none => exact .error ⟨rfl, hfalse⟩
  | some f =>
    cases f with
    | var v =>
      obtain ⟨ht, hin⟩ := h.found_var hc hf
      have hty := ExprType.sound_of_ty ht
      have hval := ExprType.hasValue_of_sound ht
      rcases hin with ⟨hin | hin, hd⟩ | hin
      · simp only [hin]
        exact .pure ⟨rfl, hfalse⟩ ⟨hty, fun _ => .inr ⟨.inl rfl, hval, v, rfl, hd⟩, rfl⟩
      · simp only [hin]
        exact .pure ⟨rfl, hfalse⟩ ⟨hty, fun _ => .inr ⟨.inr rfl, hval, v, rfl, hd⟩, rfl⟩
      · simp only [hin]
        split
        · exact .error ⟨rfl, hfalse⟩
        · rename_i hs
          apply (visitThis_checks h loc).quiet_bind
          intro owner ho
          refine .pure ⟨rfl, hfalse⟩ ?_
          rintro ⟨-, hready, hx⟩
          have howner : owner.type = .ty (.cls env.cls) := by
            rw [Expr.type, ho.1, if_neg hs]
          refine ⟨hty, fun _ => .inr ⟨rfl, hval, rfl, hready ho.2, ?_⟩, hx⟩
          simp [howner, ExprType.hasValue]
    | func f => exact .pure ⟨rfl, hfalse⟩ ⟨rfl, fun _ => .inl ⟨rfl, rfl⟩, rfl⟩
    | cls c =>
      cases u with
      | true => exact .pure ⟨rfl, rfl⟩ ⟨rfl, fun hn => by simp [LValue.node] at hn, rfl⟩
      | false => exact .error ⟨rfl, rfl⟩

theorem visitSelect_checks (h : EnvOk env k) (u : Bool) (loc : Nat) (owner : Expr Note)
    (name : String) (xs : List Comparison) : Checks (visitSelect env u loc owner name) False
    (fun e => e.node.type = (if owner.node.isClass then .ty .ERROR
      else memberType (env.member name owner.type)) ∧ e.node.isClass = false)
    fun e => Kept owner.node (owner.Ready k defined) owner.compared xs →
      Kept e.node (e.Ready k defined) e.compared xs := by
  unfold visitSelect
  cases ht : owner.type with
  | func f => exact .error ⟨by simp [Env.member, memberType, LValue.node, Note.fresh], rfl⟩
  | ty t =>
    cases t with
    | base b =>
      cases b with
      | ERROR =>
        refine .pure ⟨by simp [Env.member, memberType, LValue.node, Note.fresh], rfl⟩ ?_
        intro hk
        exact absurd ht (ExprType.sound_ne_ERROR hk.1)
      | _ => exact .error ⟨by simp [Env.member, memberType, LValue.node, Note.fresh], rfl⟩
    | array t => exact .error ⟨by simp [Env.member, memberType, LValue.node, Note.fresh], rfl⟩
    | cls c =>
      cases hclass : owner.node.isClass with
      | true => exact .error ⟨rfl, rfl⟩
      | false =>
        simp only [Bool.false_eq_true, if_false, Env.member]
        cases hl : lookupVisible env.scopes name (env.chain c) with
        | none => exact .error ⟨rfl, rfl⟩
        | some sym =>
          obtain ⟨d, -, hsym, -⟩ := lookupVisible_mem hl
          cases sym with
          | func f => exact .pure ⟨rfl, rfl⟩ fun hk => ⟨rfl, fun _ => .inl ⟨rfl, rfl⟩, hk.2.2⟩
          | var v =>
            dsimp only
            split
            · exact .error ⟨rfl, rfl⟩
            · have hv := (h.vars d v hsym).2
              refine .pure ⟨rfl, rfl⟩ fun hk => ⟨ExprType.sound_of_ty hv, fun _ => ?_, hk.2.2⟩
              refine .inr ⟨rfl, ExprType.hasValue_of_sound hv, rfl, hk.2.1 hclass, ?_⟩
              simp [ht, ExprType.hasValue]

/-! ## Calls -/

theorem checks_compatible (chain : ClassId → List ClassId) (s : ExprType) (t : Ty) :
    Checks (orThrow (s.compatible chain (.ty t))) False
      (fun b => s.compatible chain (.ty t) = .ok b) fun _ => True := by
  apply (checks_orThrow _).imp _ (fun _ => id) fun _ _ => id
  obtain ⟨b, hb⟩ := ExprType.compatible_ty chain s t
  simp [hb]

theorem checkActuals_checks (env : Env) {es : List (Expr Note)} {ts : List Ty}
    (hlen : es.length = ts.length) (hts : ∀ t ∈ ts, t.sound) :
    Checks (checkActuals env es ts) False (fun _ => True)
      fun _ => (∀ e ∈ es, e.type.sound) → ∀ e ∈ es, e.type.hasValue := by
  induction es generalizing ts with
  | nil =>
    obtain rfl := List.length_eq_zero_iff.mp hlen.symm
    exact .pure trivial fun _ _ he => by simp at he
  | cons e es ih =>
    obtain ⟨t, ts, rfl⟩ := List.exists_cons_of_length_eq_add_one hlen.symm
    rw [checkActuals]
    apply (checks_compatible env.chain e.type t).quiet_bind
    intro b hb
    apply (checks_issueIf _ _).quiet_bind
    intro _ _
    apply (ih (by simpa using hlen) fun t ht => hts t (List.mem_cons_of_mem _ ht)).imp Iff.rfl
      (fun _ => id)
    intro _ _ hrest hno _ hsound x hx
    rcases List.mem_cons.mp hx with rfl | hx
    · have hs := hsound x List.mem_cons_self
      have hb' : b = true := by
        cases b with
        | true => rfl
        | false => exact absurd ⟨ExprType.sound_ne_ERROR hs, rfl⟩ hno
      exact ExprType.hasValue_of_compatible (hb' ▸ hb) hs (hts t List.mem_cons_self)
    · exact hrest (fun y hy => hsound y (List.mem_cons_of_mem _ hy)) x hx

theorem checkArguments_checks {f : Function} (hf : FuncOk k f) (es : List (Expr Note)) :
    Checks (checkArguments env f es) False (fun _ => True)
      fun _ => (∀ e ∈ es, e.type.sound) → ∀ e ∈ es, e.type.hasValue := by
  have hcount (p : Prop) [Decidable p] (ts : List Ty) (hts : ∀ t ∈ ts, t.sound)
      (hp : ¬ p → es.length = ts.length) :
      Checks (if p then issueError .BadArgCount else checkActuals env es ts) False (fun _ => True)
        fun _ => (∀ e ∈ es, e.type.sound) → ∀ e ∈ es, e.type.hasValue := by
    split
    · exact (checks_issueError _).imp Iff.rfl (fun _ => id) fun _ _ hn => hn.elim
    · rename_i hn
      exact checkActuals_checks env (hp hn) hts
  unfold checkArguments
  cases f.statik with
  | true => exact hcount _ _ hf.args fun hn => by simpa using (not_not.mp hn).symm
  | false =>
    refine hcount _ _ (fun t ht => hf.args t (List.mem_of_mem_tail ht)) fun hn => ?_
    have hlen := not_not.mp hn
    simp only [Bool.false_eq_true, if_false] at hlen ⊢
    rw [List.length_tail]
    omega

/-- The receiver that the call keeps: a static method has none. -/
def KeptReceiver (k : Known) (defined : List Nat) (f : Function) (xs : List Comparison)
    (receiver : Option (Expr Note)) : Prop :=
  (f.statik = true ∧ receiver = none) ∨
    f.statik = false ∧ ∃ r, receiver = some r ∧ r.Used k defined ∧ r.compared = xs

/-- What has been seen of a receiver, if there is one. -/
def VisitedReceiver (k : Known) (defined : List Nat) (xs : List Comparison)
    (receiver : Option (Expr Note)) : Prop :=
  match receiver with
  | none => xs = []
  | some r => Kept r.node (r.Ready k defined) r.compared xs ∧ r.type.hasValue

theorem receiverOf_checks (h : EnvOk env k) (f : Function) (loc : Nat)
    (receiver : Option (Expr Note)) (xs : List Comparison) :
    Checks (receiverOf env f loc receiver) False (fun _ => True) fun r =>
      ¬ (receiver.isNone ∧ env.currentFunction.statik ∧ !f.statik) →
      ¬ (!f.statik ∧ receiver.any fun r => r.node.isClass) →
      VisitedReceiver k defined xs receiver → KeptReceiver k defined f xs r := by
  unfold receiverOf
  cases hs : f.statik with
  | true => exact .pure trivial fun _ _ _ => .inl ⟨hs, rfl⟩
  | false =>
    simp only [Bool.false_eq_true, if_false]
    cases receiver with
    | some r =>
      refine .pure trivial fun _ hclass hr => .inr ⟨hs, r, rfl, ?_⟩
      obtain ⟨⟨-, hready, hx⟩, hval⟩ := hr
      have hn : r.node.isClass = false := by simpa using hclass
      exact ⟨⟨hready hn, hval⟩, hx⟩
    | none =>
      cases hc : env.currentFunction.statik with
      | true => exact .pure trivial fun hn _ _ => absurd ⟨rfl, rfl, rfl⟩ hn
      | false =>
        simp only [Option.isNone_none, Bool.not_false, and_self, if_true]
        apply (visitThis_checks h loc).quiet_bind
        intro r hr
        refine .pure trivial fun hk _ _ hxs => .inr ⟨hs, r, rfl, ⟨hk.2.1 hr.2, ?_⟩, ?_⟩
        · rw [Expr.type, hr.1, hc]
          simp [ExprType.hasValue]
        · rw [hk.2.2, hxs]

theorem ready_of_toList : {es : Exprs Note} → (∀ e ∈ es.toList, e.Ready k defined) →
    (∀ e ∈ es.toList, e.type.hasValue) → es.Ready k defined
  | .nil, _, _ => trivial
  | .cons e es, hready, hval => by
    simp only [Exprs.toList, List.mem_cons, forall_eq_or_imp] at hready hval
    exact ⟨⟨hready.1, hval.1⟩, ready_of_toList hready.2 hval.2⟩

/-- What is known of the actuals behind a visit. -/
def VisitedActuals (k : Known) (defined : List Nat) (ys : List Comparison) (es : Exprs Note) :
    Prop :=
  (∀ e ∈ es.toList, e.type.sound ∧ e.Ready k defined) ∧ es.compared = ys

/-- What is known of a call that finds `f`, behind a receiver with the comparisons `xs`. -/
def KeptCall (k : Known) (defined : List Nat) (f : Option Symbol) (xs ys : List Comparison)
    (c : Call Note) : Prop :=
  Kept c.node (c.Ready k defined) c.compared
    ((if Symbol.isStatik f then [] else xs) ++ (if Symbol.isFunction f then ys else []))

theorem checkCallExpr_checks (h : EnvOk env k) {node : Note} (hnode : node.type = .ty .ERROR)
    (hclass : node.isClass = false) (hlength : node.isArrayLength = false)
    (receiver : Option (Expr Note)) (method : String) (actuals : Exprs Nat)
    {visitActuals : Check (Exprs Note)} {trips : Prop} (xs ys : List Comparison)
    (hv : Checks visitActuals trips (fun _ => True) (VisitedActuals k defined ys))
    {f : Option Symbol} (hf : ∀ g, f = some (.func g) → FuncOk k g) :
    Checks (checkCallExpr env node receiver method actuals visitActuals f)
      (Symbol.isFunction f ∧ trips)
      (fun c => c.node.type = resultType f ∧ c.node.isClass = false)
      fun c => VisitedReceiver k defined xs receiver → KeptCall k defined f xs ys c := by
  have hmade (node : Note) (receiver : Option (Expr Note)) (es : Exprs Note) :
      (callExpr node receiver method es).node = node := by
    cases receiver <;> rfl
  unfold checkCallExpr
  cases f with
  | none =>
    simp only [Symbol.isFunction, Bool.false_eq_true, false_and]
    exact .error ⟨by rw [hmade]; exact hnode, by rw [hmade]; exact hclass⟩
  | some sym =>
    cases sym with
    | var v =>
      simp only [Symbol.isFunction, Bool.false_eq_true, false_and]
      exact .error ⟨by rw [hmade]; exact hnode, by rw [hmade]; exact hclass⟩
    | func g =>
      have hg := hf g rfl
      simp only [Symbol.isFunction, true_and]
      apply (checks_issueIf _ _).quiet_bind
      intro _ _
      apply (checks_issueIf _ _).quiet_bind
      intro _ _
      apply (receiverOf_checks (k := k) h g _ receiver xs).quiet_bind
      intro r _
      apply hv.bind_quiet
      intro es _
      apply (checkArguments_checks hg es.toList).quiet_bind
      intro _ _
      refine .pure ⟨by rw [hmade]; rfl, by rw [hmade]; exact hclass⟩ ?_
      intro hargs hes hr hname hthis hvisited
      have hready := ready_of_toList (fun e he => (hes.1 e he).2)
        (hargs fun e he => (hes.1 e he).1)
      rw [KeptCall, hmade]
      refine ⟨hg.result, ?_⟩
      rcases hr hthis hname hvisited with ⟨hs, rfl⟩ | ⟨hs, r, rfl, hr, hx⟩
      · simp only [Symbol.isStatik, hs, if_true, List.nil_append]
        exact ⟨fun _ => ⟨hlength, ⟨g, hg.known, rfl, rfl⟩, hready⟩, hes.2⟩
      · simp only [Symbol.isStatik, hs, Bool.false_eq_true, if_false]
        refine ⟨fun _ => ⟨hr, .inr ⟨hlength, ⟨g, hg.known, rfl, rfl⟩, hready⟩⟩, ?_⟩
        simp [callExpr, Call.compared, hlength, hx, hes.2, Symbol.isFunction]

theorem toList_eq_nil : {es : Exprs Nat} → ¬ es.toList.length > 0 → es = .nil
  | .nil, _ => rfl
  | .cons _ _, h => by simp [Exprs.toList] at h

/-- An error where the call finds nothing. -/
theorem Checks.error_none {α : Type} {Q R : α → Prop} {trips : Prop} {e : DecafError} {a : α}
    (h : Q a) : Checks (do issueError e; Pure.pure a) (Symbol.isFunction none ∧ trips) Q R :=
  (Checks.error h).imp (by simp [Symbol.isFunction]) (fun _ => id) fun _ _ => id

theorem visitCallOn_checks (h : EnvOk env k) {node : Note} (hnode : node.type = .ty .ERROR)
    (hclass : node.isClass = false) (hlength : node.isArrayLength = false) {receiver : Expr Note}
    (href : receiver.node.isClass = true → receiver.type.isClassType = true)
    (method : String) (actuals : Exprs Nat) {visitActuals : Check (Exprs Note)} {trips : Prop}
    (xs ys : List Comparison)
    (hv : Checks visitActuals trips (fun _ => True) (VisitedActuals k defined ys)) :
    Checks (visitCallOn env node receiver method actuals visitActuals)
      (Symbol.isFunction (env.member method receiver.type) ∧ trips)
      (fun c => c.node.type = env.resultOn receiver.type method ∧ c.node.isClass = false)
      fun c => Kept receiver.node (receiver.Ready k defined) receiver.compared xs →
        KeptCall k defined (env.member method receiver.type) xs ys c := by
  unfold visitCallOn
  cases ht : receiver.type with
  | func f => exact .error_none ⟨hnode, hclass⟩
  | ty t =>
    cases t with
    | base b =>
      cases b with
      | ERROR =>
        refine Checks.imp (.pure ⟨hnode, hclass⟩ fun hk => ?_) (by simp [Env.member, Symbol.isFunction])
          (fun _ => id) fun _ _ => id
        exact absurd ht (ExprType.sound_ne_ERROR hk.1)
      | _ => exact .error_none ⟨hnode, hclass⟩
    | array t =>
      dsimp only
      split
      · rename_i hm
        apply Checks.imp _ (p := False) (by simp [Env.member, Symbol.isFunction]) (fun _ => id)
          fun _ _ => id
        apply (checks_issueIf _ _).quiet_bind
        intro _ _
        refine .pure ⟨by simp [Call.node, Env.resultOn, hm], hclass⟩ fun hnone hk => ?_
        obtain rfl := toList_eq_nil hnone
        have hname : receiver.node.isClass = false := by
          cases hc : receiver.node.isClass with
          | false => rfl
          | true => simp [ht, ExprType.isClassType, Ty.isClassType] at href hc; simp [href] at hc
        refine ⟨rfl, fun _ => ⟨⟨hk.2.1 hname, ?_⟩, .inl ⟨rfl, rfl⟩⟩, ?_⟩
        · simp [ht, ExprType.hasValue]
        · simp [Call.compared, hk.2.2, Env.member, Symbol.isFunction, Symbol.isStatik]
      · rename_i hm
        exact .error_none ⟨by simpa [Env.resultOn, hm, Call.node] using hnode, hclass⟩
    | cls c =>
      have hcall := checkCallExpr_checks h hnode hclass hlength (some receiver) method actuals
        xs ys hv (f := env.member method (.ty (.cls c))) fun g hg => by
          obtain ⟨d, -, hmem, -⟩ := lookupVisible_mem hg
          exact h.funcs d g hmem
      exact hcall.imp Iff.rfl (fun _ => id) fun c _ hc hk =>
        hc ⟨hk, by simp [ht, ExprType.hasValue]⟩

/-! ## Expressions -/

/-- What is known of the operands of a binary expression without an error. -/
def operandsOk (tag : BinaryTag) (left right : ExprType) : Prop :=
  if tag.isEquality then matched left right else left.hasValue ∧ right.hasValue

theorem checkEquality_checks (env : Env) (left right : ExprType) :
    Checks (do
        let there ← orThrow (left.compatible env.chain right)
        let back ← (if there then pure true else orThrow (right.compatible env.chain left))
        issueIf (back = false) .IncompatBinOp
        pure (.ty .BOOL))
      (Comparison.trips env.chain ⟨left, right⟩) (fun t => t = ExprType.ty .BOOL)
      fun _ => left.sound → right.sound → matched left right := by
  apply (checks_orThrow _).bind Comparison.trips_iff
  intro there hthere
  have hback : Checks (if there then pure true else orThrow (right.compatible env.chain left))
      (left.compatible env.chain right = .ok false ∧
        ∃ e, right.compatible env.chain left = .error e)
      (fun b => there = true ∨ right.compatible env.chain left = .ok b) fun _ => True := by
    cases there with
    | true => exact Checks.imp (.pure (.inl rfl) trivial) (by simp [hthere]) (fun _ => id) fun _ _ => id
    | false =>
      exact (checks_orThrow _).imp (by simp [hthere]) (fun _ => .inr) fun _ _ => id
  apply hback.bind_quiet
  intro b hb
  apply (checks_issueIf _ _).quiet_bind
  intro _ _
  refine .pure rfl fun hne _ _ hl hr => ?_
  have hbt : b = true := by simpa using hne
  rcases hb with rfl | hb
  · exact matched_of_compatible hthere hl hr
  · exact (matched_of_compatible (hbt ▸ hb) hr hl).symm

theorem checkBinaryOp_checks (env : Env) (tag : BinaryTag) (left right : ExprType) :
    Checks (checkBinaryOp env tag left right)
      (tag.isEquality ∧ Comparison.trips env.chain ⟨left, right⟩)
      (fun t => t = binaryType tag left)
      fun t => left.sound → right.sound → t.sound ∧ t.hasValue ∧ operandsOk tag left right := by
  have hint {s : ExprType} (hs : s = .ty .INT) : s.hasValue := by simp [hs, ExprType.hasValue]
  have hplain (P : Prop) [Decidable P] (t : ExprType) (htag : tag.isEquality = false)
      (ht : t = binaryType tag left)
      (hp : ¬ P → t.sound ∧ t.hasValue ∧ left.hasValue ∧ right.hasValue) :
      Checks (do issueIf P .IncompatBinOp; pure t)
        (tag.isEquality ∧ Comparison.trips env.chain ⟨left, right⟩)
        (fun t => t = binaryType tag left)
        fun t => left.sound → right.sound → t.sound ∧ t.hasValue ∧ operandsOk tag left right := by
    apply Checks.imp _ (p := False) (by simp [htag]) (fun _ => id) fun _ _ => id
    apply (checks_issueIf _ _).quiet_bind
    intro _ _
    refine .pure ht fun hn _ _ => ?_
    simpa [operandsOk, htag] using hp hn
  unfold checkBinaryOp
  by_cases he : left = .ty .ERROR ∨ right = .ty .ERROR
  · have hq : (tag.isEquality ∧ Comparison.trips env.chain ⟨left, right⟩) ↔ False := by
      rcases he with rfl | rfl
      · simp [Comparison.trips]
      · cases left <;> simp [Comparison.trips]
    have hr : left.sound → right.sound → False := fun hl hr => by
      rcases he with rfl | rfl
      · exact ExprType.sound_ne_ERROR hl rfl
      · exact ExprType.sound_ne_ERROR hr rfl
    rw [if_pos he, hq]
    cases tag <;> exact .pure rfl fun hl h => (hr hl h).elim
  · rw [if_neg he]
    cases tag with
    | EQ | NE =>
      apply (checkEquality_checks env left right).imp (by simp [BinaryTag.isEquality])
        (fun _ => id)
      rintro _ rfl hm hl hr
      exact ⟨rfl, rfl, by simpa [operandsOk, BinaryTag.isEquality] using hm hl hr⟩
    | PLUS | MINUS | MUL | DIV =>
      refine hplain _ _ rfl rfl fun hn => ?_
      obtain ⟨hl, hr⟩ := not_not.mp hn
      exact ⟨by rw [hl]; rfl, hint hl, hint hl, hint hr⟩
    | MOD | LT | GT | LE | GE =>
      refine hplain _ _ rfl rfl fun hn => ?_
      obtain ⟨hl, hr⟩ := not_not.mp hn
      exact ⟨rfl, rfl, hint hl, hint hr⟩
    | AND | OR =>
      refine hplain _ _ rfl rfl fun hn => ?_
      obtain ⟨hl, hr⟩ := not_not.mp hn
      exact ⟨rfl, rfl, by rw [hl]; rfl, by rw [hr]; rfl⟩

theorem checkUnaryOp_checks (tag : UnaryTag) (t : ExprType) : Checks (checkUnaryOp tag t) False
    (fun s => s = match tag with
      | .NEG => if t = .ty .INT then .ty .INT else .ty .ERROR
      | .NOT => .ty .BOOL)
    fun s => t.sound → s.sound ∧ s.hasValue ∧ t.hasValue := by
  cases tag with
  | NEG =>
    simp only [checkUnaryOp]
    split
    · rename_i ht
      refine .pure ?_ fun hs => ?_
      · rcases ht with rfl | rfl <;> rfl
      · have hint := ht.resolve_left (ExprType.sound_ne_ERROR hs)
        simp [hint, ExprType.sound, ExprType.hasValue, Ty.sound]
    · rename_i ht
      exact .error (by rw [if_neg (not_or.mp ht).2])
  | NOT =>
    apply (checks_issueIf _ _).quiet_bind
    intro _ _
    refine .pure rfl fun hn hs => ?_
    have hbool : t = .ty .BOOL := by
      by_contra hne
      exact hn ⟨hne, ExprType.sound_ne_ERROR hs⟩
    simp [hbool, ExprType.sound, ExprType.hasValue, Ty.sound]

theorem checkElement_checks (t : ExprType) : Checks (checkElement t) False
    (fun s => s = elementTypeOf t)
    fun s => t.sound → s.sound ∧ s.hasValue ∧ t.hasValue := by
  cases t with
  | func f => exact .error rfl
  | ty t =>
    cases t with
    | base b => exact .error rfl
    | cls c => exact .error rfl
    | array t =>
      refine .pure rfl fun hs => ?_
      have ht : t.sound := by simpa [ExprType.sound, Ty.sound] using hs
      exact ⟨ExprType.sound_of_ty ht, ExprType.hasValue_of_sound ht, rfl⟩

theorem checkElementType_checks (env : Env) (lit : TypeLiteral) :
    Checks (checkElementType env lit) False
      (fun s => s = arrayOf (BuildSym.visitType env.globals lit).1)
      fun s => s.sound ∧ s.hasValue := by
  unfold checkElementType
  have hsound := visitType_sound env.globals lit
  generalize BuildSym.visitType env.globals lit = r at hsound
  obtain ⟨t, errors⟩ := r
  apply (checks_issueErrors errors).quiet_bind
  intro _ _
  dsimp only at hsound ⊢
  split
  · rename_i ht
    refine .pure (by simp [arrayOf, ht]) fun hnone => ?_
    rcases hsound with h | h | h
    · exact absurd hnone h.2
    · simp [ht] at h
    · exact absurd ht (Ty.sound_ne_ERROR h)
  · split
    · rename_i ht
      exact .error (by simp [arrayOf, ht])
    · rename_i he hv
      refine .pure (by simp [arrayOf, he, hv]) fun _ => ?_
      have ht : (Ty.array t).sound := by
        rcases hsound with h | h | h
        · exact absurd h.1 he
        · exact absurd h hv
        · exact h
      exact ⟨ExprType.sound_of_ty ht, ExprType.hasValue_of_sound ht⟩

theorem findClass_checks (h : EnvOk env k) (className : String) :
    Checks (findClass env className) False (fun c => c = env.globals.lookupClass className)
      fun c => (classType c).sound ∧ (classType c).hasValue ∧ ∃ i, c = some i ∧ i < k.classes := by
  unfold findClass
  apply (checks_issueIf _ _).quiet_bind
  intro _ _
  refine .pure rfl fun hn => ?_
  cases hc : env.globals.lookupClass className with
  | none => simp [hc] at hn
  | some c => exact ⟨rfl, rfl, c, rfl, h.classes className c hc⟩

/-- The name of a class has the type of the class. -/
theorem isClassType_of_namesClass {e : Expr Nat} (h : e.namesClass env = true) :
    (e.typeOf env true).isClassType = true := by
  unfold Expr.namesClass at h
  split at h
  · rename_i loc name
    show (foundType true (env.lookupBeforeLocation name loc)).isClassType = true
    cases hf : env.lookupBeforeLocation name loc with
    | none => simp [hf, foundClass] at h
    | some f =>
      cases f with
      | cls c => rfl
      | _ => simp [hf, foundClass] at h
  · simp at h

/-- What is known of an expression behind a visit: its type, and whether it names a class. -/
def VisitedAs (type : ExprType) (isClass : Bool) (node : Note) : Prop :=
  node.type = type ∧ node.isClass = isClass

/-- A type that goes with a value. -/
theorem Kept.used {e : Expr Note} {type : ExprType} {xs : List Comparison}
    (hq : VisitedAs type false e.node) (hk : Kept e.node (e.Ready k defined) e.compared xs) :
    e.Ready k defined ∧ e.compared = xs ∧ e.type.sound :=
  ⟨hk.2.1 hq.2, hk.2.2, hk.1⟩

mutual

theorem visitLValue_checks (h : EnvOk env k) (u : Bool) : ∀ (left : LValue Nat),
    Covers env defined (left.marks id) →
    Checks (visitLValue env u left) (Trips env.chain (left.comparisons env true))
      (fun x => VisitedAs (left.typeOf env u) (u && (Expr.lvalue left).namesClass env) x.node)
      fun x => Kept x.node (x.Ready k defined) x.compared (left.comparisons env false)
  | .ident loc name, hc => by
    rw [LValue.comparisons, trips_nil]
    exact visitIdent_checks h hc u name
  | .select loc owner name, hc => by
    apply (visitExpr_checks h true owner hc).bind_quiet
    intro o ho
    apply (visitSelect_checks h u loc o name _).imp Iff.rfl _ fun _ _ => id
    rintro e ⟨ht, hclass⟩
    refine ⟨?_, by simp [hclass, Expr.namesClass]⟩
    rw [ht, ho.2, Expr.type, ho.1]
    rfl
  | .indexed loc array index, hc => by
    obtain ⟨hca, hci⟩ := covers_append.mp hc
    apply (visitExpr_checks h false array hca).bind (trips_append.symm)
    intro a ha
    apply (checkElement_checks a.type).quiet_bind
    intro t ht
    apply (visitExpr_checks h false index hci).bind_quiet
    intro i hi
    apply (checks_issueIf _ _).quiet_bind
    intro _ _
    refine .pure ⟨?_, by simp [Expr.namesClass, LValue.node, Note.fresh]⟩ ?_
    · show t = elementTypeOf (array.typeOf env false)
      rw [ht, Expr.type, ha.1]
    · intro hint hki hkt hka
      obtain ⟨hra, hxa, hsa⟩ := hka.used ha
      obtain ⟨hri, hxi, hsi⟩ := hki.used hi
      obtain ⟨hst, hvt, hva⟩ := hkt hsa
      have hvi : i.type.hasValue := by
        rw [not_not.mp hint]
        rfl
      exact ⟨hst, fun _ => ⟨rfl, hvt, ⟨hra, hva⟩, hri, hvi⟩, by
        simp [LValue.compared, LValue.comparisons, hxa, hxi]⟩

theorem visitCall_checks (h : EnvOk env k) (u : Bool) : ∀ (c : Call Nat),
    Covers env defined (c.marks id) →
    Checks (visitCall env u c) (Trips env.chain (c.comparisons env true))
      (fun x => VisitedAs (c.typeOf env) false x.node)
      fun x => Kept x.node (x.Ready k defined) x.compared (c.comparisons env false)
  | .call loc method actuals, hc => by
    have hf (g : Function) (hg : lookupVisible env.scopes method (env.chain env.cls) =
        some (.func g)) : FuncOk k g := by
      obtain ⟨d, -, hmem, -⟩ := lookupVisible_mem hg
      exact h.funcs d g hmem
    apply (checkCallExpr_checks h rfl rfl rfl none method actuals [] _
      (visitExprs_checks h actuals hc) hf).imp _ (fun _ => id)
    · intro c _ hk
      obtain ⟨hs, hr, hx⟩ := hk rfl
      refine ⟨hs, hr, hx.trans ?_⟩
      rw [ite_self, List.nil_append]
      rfl
    · show _ ↔ Trips env.chain (if Symbol.isFunction _ then _ else _)
      split <;> rename_i hf <;> simp_all [Env.member]
  | .callOn loc receiver method actuals, hc => by
    obtain ⟨hcr, hca⟩ := covers_append.mp hc
    have htrips : Trips env.chain (receiver.comparisons env true) ∨
        (Symbol.isFunction (env.member method (receiver.typeOf env true)) ∧
          Trips env.chain (actuals.comparisons env true)) ↔
        Trips env.chain ((Call.callOn loc receiver method actuals).comparisons env true) := by
      simp only [Call.comparisons, Bool.true_or, if_true, trips_append]
      split <;> rename_i hf <;> simp [hf]
    apply (visitExpr_checks h true receiver hcr).bind htrips
    intro r hr
    have href : r.node.isClass = true → r.type.isClassType = true := fun hclass => by
      rw [hr.2] at hclass
      rw [Expr.type, hr.1]
      exact isClassType_of_namesClass (by simpa using hclass)
    have hfresh : ({ Note.fresh loc with usedForRef := u } : Note).type = .ty .ERROR := rfl
    have hon := visitCallOn_checks h hfresh rfl rfl
      href method actuals (receiver.comparisons env false) _ (visitExprs_checks h actuals hca)
    have htype : r.type = receiver.typeOf env true := hr.1
    rw [htype] at hon
    apply hon.imp Iff.rfl (fun _ => id)
    intro c _ hk hkr
    obtain ⟨hs, hready, hx⟩ := hk hkr
    refine ⟨hs, hready, hx.trans ?_⟩
    simp only [Call.comparisons, Bool.false_or, Bool.not_eq_eq_eq_not, Bool.not_true]
    cases Symbol.isStatik (env.member method (receiver.typeOf env true)) <;> rfl

/-- The visit of an expression. -/
theorem visitExpr_checks (h : EnvOk env k) (u : Bool) : ∀ (e : Expr Nat),
    Covers env defined (e.marks id) →
    Checks (visitExpr env u e) (Trips env.chain (e.comparisons env true))
      (fun x => VisitedAs (e.typeOf env u) (u && e.namesClass env) x.node)
      fun x => Kept x.node (x.Ready k defined) x.compared (e.comparisons env false)
  | .lvalue left, hc => by
    apply (visitLValue_checks h u left hc).bind_quiet
    intro x hx
    exact .pure hx id
  | .call c, hc => by
    apply (visitCall_checks h u c hc).bind_quiet
    intro x hx
    refine .pure ⟨hx.1, ?_⟩ id
    rw [Expr.namesClass, Bool.and_false]
    · exact hx.2
    · simp
  | .literal loc value, _ => by
    rw [Expr.comparisons, trips_nil]
    refine .pure ⟨rfl, (Bool.and_false u).symm⟩ ?_
    cases value <;> exact ⟨rfl, fun _ => rfl, rfl⟩
  | .null loc, _ => by
    rw [Expr.comparisons, trips_nil]
    exact .pure ⟨rfl, (Bool.and_false u).symm⟩ ⟨rfl, fun _ => rfl, rfl⟩
  | .readInt loc, _ => by
    rw [Expr.comparisons, trips_nil]
    exact .pure ⟨rfl, (Bool.and_false u).symm⟩ ⟨rfl, fun _ => rfl, rfl⟩
  | .readLine loc, _ => by
    rw [Expr.comparisons, trips_nil]
    exact .pure ⟨rfl, (Bool.and_false u).symm⟩ ⟨rfl, fun _ => rfl, rfl⟩
  | .this loc, _ => by
    rw [Expr.comparisons, trips_nil]
    apply (visitThis_checks h loc).imp Iff.rfl _ fun _ _ => id
    rintro e ⟨ht, hclass⟩
    exact ⟨ht, hclass.trans (Bool.and_false u).symm⟩
  | .unary loc tag expr, hc => by
    apply (visitExpr_checks h false expr hc).bind_quiet
    intro e he
    apply (checkUnaryOp_checks tag e.type).quiet_bind
    intro t ht
    refine .pure ⟨?_, (Bool.and_false u).symm⟩ fun hkt hke => ?_
    · have hte : e.type = expr.typeOf env false := he.1
      rw [hte] at ht
      cases tag <;> exact ht
    · obtain ⟨hr, hx, hs⟩ := hke.used he
      obtain ⟨hst, hvt, hve⟩ := hkt hs
      exact ⟨hst, fun _ => ⟨hvt, hr, hve⟩, hx⟩
  | .binary loc tag left right, hc => by
    obtain ⟨hcl, hcr⟩ := covers_append.mp hc
    have htrips : (Trips env.chain (left.comparisons env true) ∨
        (Trips env.chain (right.comparisons env true) ∨ (tag.isEquality ∧
          Comparison.trips env.chain ⟨left.typeOf env false, right.typeOf env false⟩))) ↔
        Trips env.chain ((Expr.binary loc tag left right).comparisons env true) := by
      simp only [Expr.comparisons, trips_append, or_assoc]
      cases tag.isEquality <;> simp [Trips]
    apply (visitExpr_checks h false left hcl).bind htrips
    intro l hl
    apply (visitExpr_checks h false right hcr).bind Iff.rfl
    intro r hr
    have htl : l.type = left.typeOf env false := hl.1
    have htr : r.type = right.typeOf env false := hr.1
    rw [← htl, ← htr]
    apply (checkBinaryOp_checks env tag l.type r.type).bind_quiet
    intro t ht
    refine .pure ⟨by rw [htl] at ht; exact ht, (Bool.and_false u).symm⟩ fun hkt hkr hkl => ?_
    obtain ⟨hrl, hxl, hsl⟩ := hkl.used hl
    obtain ⟨hrr, hxr, hsr⟩ := hkr.used hr
    obtain ⟨hst, hvt, hop⟩ := hkt hsl hsr
    refine ⟨hst, fun _ => ⟨hvt, hrl, hrr, hop⟩, ?_⟩
    rw [Expr.compared, Expr.comparisons, hxl, hxr, htl, htr]
  | .newClass loc className, _ => by
    rw [Expr.comparisons, trips_nil]
    apply (findClass_checks h className).quiet_bind
    intro c hc
    refine .pure ⟨congrArg classType hc, (Bool.and_false u).symm⟩ ?_
    rintro ⟨hs, hv, hi⟩
    exact ⟨hs, fun _ => ⟨hv, hi⟩, rfl⟩
  | .newArray loc elementType length, hc => by
    apply (checkElementType_checks env elementType).quiet_bind
    intro t ht
    apply (visitExpr_checks h false length hc).bind_quiet
    intro l hl
    apply (checks_issueIf _ _).quiet_bind
    intro _ _
    refine .pure ⟨ht, (Bool.and_false u).symm⟩ fun hn hkl hkt => ?_
    obtain ⟨hr, hx, hs⟩ := hkl.used hl
    have hint : l.type = .ty .INT := by
      by_contra hne
      exact hn ⟨ExprType.sound_ne_ERROR hs, hne⟩
    exact ⟨hkt.1, fun _ => ⟨hkt.2, hr, by rw [hint]; rfl⟩, hx⟩
  | .typeTest loc inst className, hc => by
    apply (visitExpr_checks h false inst hc).bind_quiet
    intro e he
    apply (checks_issueIf _ _).quiet_bind
    intro _ _
    apply (findClass_checks h className).quiet_bind
    intro c _
    refine .pure ⟨rfl, (Bool.and_false u).symm⟩ ?_
    rintro ⟨-, -, hi⟩ hn hke
    obtain ⟨hr, hx, -⟩ := hke.used he
    exact ⟨rfl, fun _ => ⟨rfl, hi, hr, ExprType.hasValue_of_class (by simpa using hn)⟩, hx⟩
  | .typeCast loc className expr, hc => by
    apply (visitExpr_checks h false expr hc).bind_quiet
    intro e he
    apply (checks_issueIf _ _).quiet_bind
    intro _ _
    apply (findClass_checks h className).quiet_bind
    intro c hc
    refine .pure ⟨congrArg classType hc, (Bool.and_false u).symm⟩ ?_
    rintro ⟨hs, hv, hi⟩ hn hke
    obtain ⟨hr, hx, -⟩ := hke.used he
    exact ⟨hs, fun _ => ⟨hv, hi, hr, ExprType.hasValue_of_class (by simpa using hn)⟩, hx⟩

theorem visitExprs_checks (h : EnvOk env k) : ∀ (es : Exprs Nat),
    Covers env defined (es.marks id) →
    Checks (visitExprs env es) (Trips env.chain (es.comparisons env true)) (fun _ => True)
      (VisitedActuals k defined (es.comparisons env false))
  | .nil, _ => by
    rw [Exprs.comparisons, trips_nil]
    exact .pure trivial ⟨fun e he => by simp [Exprs.toList] at he, rfl⟩
  | .cons e es, hc => by
    obtain ⟨hce, hces⟩ := covers_append.mp hc
    apply (visitExpr_checks h false e hce).bind (trips_append.symm)
    intro x hx
    apply (visitExprs_checks h es hces).bind_quiet
    intro xs _
    refine .pure trivial fun hks hk => ?_
    obtain ⟨hr, hcx, hs⟩ := hk.used hx
    refine ⟨?_, by simp [Exprs.compared, Exprs.comparisons, hcx, hks.2]⟩
    simp only [Exprs.toList, List.mem_cons, forall_eq_or_imp]
    exact ⟨⟨hs, hr⟩, hks.1⟩

end

/-! ## Simple statements -/

/-- An lvalue that does not name a method has a value. -/
theorem hasValue_of_ready {left : LValue Note} (h : left.Ready k defined)
    (hm : left.type.isFuncType = false) : left.type.hasValue := by
  have hno : ¬ left.node.isMethod := fun hn => by
    have := hn.2
    simp_all [LValue.type]
  cases left with
  | ident node name => exact (h.resolve_left hno).2.1
  | select node owner name => exact (h.resolve_left hno).2.1
  | indexed node array index => exact h.2.1

theorem checkAssign_checks (env : Env) (left expr : ExprType) :
    Checks (checkAssign env left expr) False (fun _ => True) fun _ =>
      left.sound → expr.sound → left.isFuncType = false ∧ (left.hasValue → expr.hasValue) := by
  unfold checkAssign
  split
  · rename_i he
    exact .pure trivial fun hs => absurd he (ExprType.sound_ne_ERROR hs)
  · split
    · exact (checks_issueError _).imp Iff.rfl (fun _ => id) fun _ _ hn => hn.elim
    · rename_i hf
      cases left with
      | func f => simp [ExprType.isFuncType] at hf
      | ty t =>
        apply (checks_compatible env.chain expr t).quiet_bind
        intro c hc
        apply (checks_issueIf _ _).imp Iff.rfl (fun _ => id)
        intro _ _ hn _ hl he
        refine ⟨rfl, fun hv => ?_⟩
        have hct : c = true := by simpa using hn
        have ht : t.sound := by
          have hvoid : t ≠ .VOID := by simpa [ExprType.hasValue] using hv
          simpa [ExprType.sound, hvoid] using hl
        exact ExprType.hasValue_of_compatible (hct ▸ hc) he ht

theorem visitSimple_checks (h : EnvOk env k) (s : Simple Nat)
    (hc : Covers env defined (s.marks id)) :
    Checks (visitSimple env s) (Trips env.chain (s.comparisons env true)) (fun _ => True)
      fun x => x.Ready k defined ∧ x.compared = s.comparisons env false := by
  cases s with
  | assign left expr =>
    obtain ⟨hcl, hce⟩ := covers_append.mp hc
    apply (visitLValue_checks h false left hcl).bind trips_append.symm
    intro l hl
    apply (visitExpr_checks h false expr hce).bind_quiet
    intro e he
    apply (checkAssign_checks env l.type e.type).quiet_bind
    intro _ _
    refine .pure trivial fun hk hke hkl => ?_
    obtain ⟨hre, hxe, hse⟩ := hke.used he
    obtain ⟨hsl, hrl, hxl⟩ := hkl
    obtain ⟨hm, hval⟩ := hk hsl hse
    have hvl := hasValue_of_ready (hrl hl.2) hm
    exact ⟨⟨⟨hrl hl.2, hvl⟩, hre, hval hvl⟩, by
      rw [Simple.compared, Simple.comparisons, hxl, hxe]⟩
  | exec c =>
    apply (visitCall_checks h false c hc).bind_quiet
    intro x hx
    exact .pure trivial fun hk => ⟨hk.2.1 hx.2, hk.2.2⟩

theorem checkTestExpr_checks (h : EnvOk env k) (e : Expr Nat) (hc : Covers env defined (e.marks id)) :
    Checks (checkTestExpr env e) (Trips env.chain (e.comparisons env true)) (fun _ => True)
      fun x => x.Used k defined ∧ x.compared = e.comparisons env false := by
  apply (visitExpr_checks h false e hc).bind_quiet
  intro x hx
  apply (checks_issueIf _ _).quiet_bind
  intro _ _
  refine .pure trivial fun hn hk => ?_
  obtain ⟨hr, hcx, hs⟩ := hk.used hx
  have hbool : x.type = .ty .BOOL := by
    by_contra hne
    exact hn ⟨ExprType.sound_ne_ERROR hs, hne⟩
  exact ⟨⟨hr, by rw [hbool]; rfl⟩, hcx⟩

theorem visitPrinted_checks (h : EnvOk env k) : ∀ (es : Exprs Nat),
    Covers env defined (es.marks id) →
    Checks (visitPrinted env es) (Trips env.chain (es.comparisons env true)) (fun _ => True)
      fun xs => xs.Ready k defined ∧ xs.compared = es.comparisons env false
  | .nil, _ => by
    rw [Exprs.comparisons, trips_nil]
    exact .pure trivial ⟨trivial, rfl⟩
  | .cons e es, hc => by
    obtain ⟨hce, hces⟩ := covers_append.mp hc
    apply (visitExpr_checks h false e hce).bind trips_append.symm
    intro x hx
    apply (checks_issueIf _ _).quiet_bind
    intro _ _
    apply (visitPrinted_checks h es hces).bind_quiet
    intro xs _
    refine .pure trivial fun hks hn hk => ?_
    obtain ⟨hr, hcx, hs⟩ := hk.used hx
    have hval : x.type.hasValue := by
      have hne := ExprType.sound_ne_ERROR hs
      by_contra hv
      exact hn ⟨hne, by rintro he; rw [he] at hv; exact hv rfl, by
        rintro he; rw [he] at hv; exact hv rfl, by rintro he; rw [he] at hv; exact hv rfl⟩
    exact ⟨⟨⟨hr, hval⟩, hks.1⟩, by rw [Exprs.compared, Exprs.comparisons, hcx, hks.2]⟩

theorem checkReturn_checks (h : EnvOk env k) (e : Option (Expr Note)) :
    Checks (checkReturn env e) False (fun _ => True)
      fun _ => ∀ x, e = some x → x.type.sound → x.type.hasValue := by
  unfold checkReturn
  dsimp only
  split
  · apply (checks_issueIf _ _).imp Iff.rfl (fun _ => id)
    rintro _ _ hn x rfl
    simp at hn
  · rename_i hvoid
    cases e with
    | none => exact (checks_issueError _).imp Iff.rfl (fun _ => id) fun _ _ hn => hn.elim
    | some e =>
      dsimp only
      split
      · rename_i he
        refine .pure trivial ?_
        rintro x ⟨⟩ hs
        exact absurd he (ExprType.sound_ne_ERROR hs)
      · apply (checks_compatible env.chain e.type _).quiet_bind
        intro c hc
        apply (checks_issueIf _ _).imp Iff.rfl (fun _ => id)
        rintro _ _ hn _ x ⟨⟩ hs
        have hct : c = true := by simpa using hn
        have ht := h.result
        simp only [ExprType.sound, hvoid, decide_false, Bool.false_or] at ht
        exact ExprType.hasValue_of_compatible (hct ▸ hc) hs ht

theorem visitReturn_checks (h : EnvOk env k) (e : Option (Expr Nat))
    (hc : Covers env defined (optionMarks (Expr.marks id) e)) :
    Checks (visitReturn env e)
      (Trips env.chain (optionComparisons (Expr.comparisons env true) e)) (fun _ => True)
      fun x => optionAll (Expr.Used k defined) x ∧
        optionComparisons Expr.compared x = optionComparisons (Expr.comparisons env false) e := by
  cases e with
  | none =>
    rw [optionComparisons, trips_nil]
    apply Checks.quiet_bind (Q := fun x => x = none) (R := fun _ => True) (.pure rfl trivial)
    rintro _ rfl
    apply (checkReturn_checks h none).quiet_bind
    intro _ _
    exact .pure trivial fun _ _ => ⟨trivial, rfl⟩
  | some e =>
    have hvisit : Checks (visitOption (visitExpr env false) (some e))
        (Trips env.chain (e.comparisons env true))
        (fun x => ∃ y, x = some y ∧ VisitedAs (e.typeOf env false) false y.node)
        fun x => ∀ y, x = some y →
          Kept y.node (y.Ready k defined) y.compared (e.comparisons env false) := by
      apply (visitExpr_checks h false e hc).bind_quiet
      intro y hy
      refine .pure ⟨y, rfl, hy⟩ ?_
      rintro hk _ ⟨⟩
      exact hk
    apply hvisit.bind_quiet
    rintro _ ⟨y, rfl, hy⟩
    apply (checkReturn_checks h (some y)).quiet_bind
    intro _ _
    refine .pure trivial fun hret hk => ?_
    obtain ⟨hr, hcx, hs⟩ := (hk y rfl).used hy
    exact ⟨⟨hr, hret y rfl hs⟩, hcx⟩

/-- A part that may be missing. -/
theorem visitOption_checks {α β : Type} {visit : α → Check β}
    (comparisons : Bool → α → List Comparison) {compared : β → List Comparison} {ready : β → Prop}
    (x : Option α)
    (hx : ∀ a, x = some a → Checks (visit a) (Trips env.chain (comparisons true a)) (fun _ => True)
      fun b => ready b ∧ compared b = comparisons false a) :
    Checks (visitOption visit x) (Trips env.chain (optionComparisons (comparisons true) x))
      (fun y => y.isSome = x.isSome) fun y => optionAll ready y ∧
        optionComparisons compared y = optionComparisons (comparisons false) x := by
  cases x with
  | none =>
    rw [optionComparisons, trips_nil]
    exact .pure rfl ⟨trivial, rfl⟩
  | some a =>
    apply (hx a rfl).bind_quiet
    intro b _
    exact .pure rfl id

/-! ## Statements -/

/-- Where the marks of a part stand in the text of a method: the local variables are defined somewhere
in it, and those in front of the part have a temp. -/
structure Located (env : Env) (defined : List Nat) (pre marks post : List Mark) : Prop where
  formals : ∀ v ∈ env.formals, v.loc ∈ defined
  ordered : (pre ++ marks ++ post).Pairwise fun a b => a.loc < b.loc
  locals : ∀ vs ∈ env.locals, ∀ v ∈ vs, .define v.loc ∈ pre ++ marks ++ post
  pre : ∀ l, .define l ∈ pre → l ∈ defined

section

variable {pre xs ys post : List Mark}

theorem Located.left (h : Located env defined pre (xs ++ ys) post) :
    Located env defined pre xs (ys ++ post) :=
  ⟨h.formals, by simpa using h.ordered, by simpa using h.locals, h.pre⟩

theorem Located.right (h : Located env defined pre (xs ++ ys) post) {defs : List Nat}
    (hx : ∀ l, .define l ∈ xs → l ∈ defs) : Located env (defined ++ defs) (pre ++ xs) ys post where
  formals v hv := List.mem_append_left _ (h.formals v hv)
  ordered := by simpa using h.ordered
  locals := by simpa using h.locals
  pre l hl := by
    rcases List.mem_append.mp hl with hl | hl
    · exact List.mem_append_left _ (h.pre l hl)
    · exact List.mem_append_right _ (hx l hl)

/-- Behind a part without definitions. -/
theorem Located.behind (h : Located env defined pre (xs ++ ys) post) (hx : ∀ l, .define l ∉ xs) :
    Located env defined (pre ++ xs) ys post := by
  have hright : Located env (defined ++ []) (pre ++ xs) ys post :=
    h.right fun l hl => absurd hl (hx l)
  simpa using hright

theorem Located.covers (h : Located env defined pre xs post) (hx : ∀ l, .define l ∉ xs) :
    Covers env defined xs := by
  refine ⟨h.formals, fun m hm vs hvs v hv hle => ?_⟩
  have hpost : Mark.define v.loc ∉ post := fun hp => by
    have hlt := (List.pairwise_append.mp h.ordered).2.2 _ (List.mem_append_right _ hm) _ hp
    simp only [Mark.loc] at hlt
    omega
  have hmem := h.locals vs hvs v hv
  simp only [List.mem_append, hpost, or_false] at hmem
  exact h.pre _ (hmem.resolve_right (hx _))

theorem Located.loop (h : Located env defined pre xs post) :
    Located { env with breaks := env.breaks + 1 } defined pre xs post :=
  ⟨h.formals, h.ordered, h.locals, h.pre⟩

end

theorem EnvOk.loop (h : EnvOk env k) : EnvOk { env with breaks := env.breaks + 1 } k :=
  ⟨h.locals, h.formals, h.vars, h.funcs, h.classes, h.statik, h.result⟩

end

section

variable {k : Known}

theorem EnvOk.block {env : Env} (h : EnvOk env k) {vs : List Variable} {defs : List Nat}
    (hv : ScopeOk vs defs) : EnvOk { env with locals := vs :: env.locals } k where
  locals ws hw v hmem := by
    rcases List.mem_cons.mp hw with rfl | hw
    · exact ⟨(hv v hmem).1, (hv v hmem).2.1⟩
    · exact h.locals ws hw v hmem
  formals := h.formals
  vars := h.vars
  funcs := h.funcs
  classes := h.classes
  statik := h.statik
  result := h.result

theorem Located.block {env : Env} {defined : List Nat} {pre post : List Mark} {vs : List Variable}
    {stmts : Stmts Built} (h : Located env defined pre (stmts.marks id) post)
    (hv : ScopeOk vs stmts.defs) :
    Located { env with locals := vs :: env.locals } defined pre (stmts.marks id) post where
  formals := h.formals
  ordered := h.ordered
  locals ws hw v hmem := by
    rcases List.mem_cons.mp hw with rfl | hw
    · have hdef := (Stmts.mem_marks (P := Built) id stmts).mpr (hv v hmem).2.2
      exact List.mem_append_left _ (List.mem_append_right _ hdef)
    · exact h.locals ws hw v hmem
  pre := h.pre

mutual

/-- The visit of a statement. -/
theorem visitStmt_checks : ∀ (s : Stmt Built) {env : Env} {defined : List Nat}
    {pre post : List Mark}, EnvOk env k → Located env defined pre (s.marks id) post → s.Scoped →
    Checks (visitStmt env s) (Trips env.chain (s.comparisons true env)) (fun x => x.defs = s.defs)
      fun x => x.Ready k env.breaks defined ∧ x.compared = s.comparisons false env
  | .varDef d, _, _, _, _, _, _, hs => by
    rw [Stmt.comparisons, trips_nil]
    exact .pure rfl ⟨hs, rfl⟩
  | .skip, _, _, _, _, _, _, _ => by
    rw [Stmt.comparisons, trips_nil]
    exact .pure rfl ⟨trivial, rfl⟩
  | .simple s, _, _, _, _, h, hl, _ => by
    apply (visitSimple_checks h s (hl.covers fun l => Simple.no_define id l s)).bind_quiet
    intro x _
    exact .pure rfl id
  | .block vs stmts, _, _, _, _, h, hl, hs => by
    apply (visitStmts_checks stmts (h.block hs.1) (hl.block hs.1) hs.2).bind_quiet
    intro x hx
    exact .pure hx id
  | .whileLoop condition loopBody, _, _, _, _, h, hl, hs => by
    have hno l := Expr.no_define id l condition
    apply (checkTestExpr_checks h condition (hl.left.covers hno)).bind trips_append.symm
    intro c _
    apply (visitStmt_checks loopBody h.loop (hl.behind hno).loop hs).bind_quiet
    intro b hb
    refine .pure hb fun hkb hkc => ⟨⟨hkc.1, hkb.1⟩, ?_⟩
    rw [Stmt.compared, Stmt.comparisons, hkc.2, hkb.2]
  | .forLoop init condition update loopBody, env, _, _, _, h, hl, hs => by
    have hnoOption l (x : Option (Simple Nat)) : Mark.define l ∉ optionMarks (Simple.marks id) x :=
      optionMarks_no_define (fun e => Simple.no_define id l e) x
    have hnoc l := Expr.no_define id l condition
    simp only [Stmt.marks, List.append_assoc] at hl
    have hli := hl.left.covers fun l => hnoOption l init
    have hrest := hl.behind fun l => hnoOption l init
    have hlc := hrest.left.covers hnoc
    have hrest' := hrest.behind hnoc
    have hlu := hrest'.left.covers fun l => hnoOption l update
    have hlb := hrest'.behind fun l => hnoOption l update
    have htrips : Trips env.chain (optionComparisons (Simple.comparisons env true) init) ∨
        (Trips env.chain (condition.comparisons env true) ∨
          (Trips env.chain (optionComparisons (Simple.comparisons env true) update) ∨
            Trips env.chain
              (loopBody.comparisons true { env with breaks := env.breaks + 1 }))) ↔
        Trips env.chain ((Stmt.forLoop init condition update loopBody).comparisons true env) := by
      simp only [Stmt.comparisons, trips_append, or_assoc]
    apply (visitOption_checks (Simple.comparisons env) init
      fun a ha => visitSimple_checks h a (by subst ha; exact hli)).bind htrips
    intro i _
    apply (checkTestExpr_checks h condition hlc).bind Iff.rfl
    intro c _
    apply (visitOption_checks (Simple.comparisons env) update
      fun a ha => visitSimple_checks h a (by subst ha; exact hlu)).bind Iff.rfl
    intro u _
    apply (visitStmt_checks loopBody h.loop hlb.loop hs).bind_quiet
    intro b hb
    refine .pure hb fun hkb hku hkc hki => ⟨⟨hki.1, hkc.1, hku.1, hkb.1⟩, ?_⟩
    rw [Stmt.compared, Stmt.comparisons, hki.2, hkc.2, hku.2, hkb.2]
  | .ifThen condition trueBranch, _, _, _, _, h, hl, hs => by
    have hno l := Expr.no_define id l condition
    apply (checkTestExpr_checks h condition (hl.left.covers hno)).bind trips_append.symm
    intro c _
    apply (visitStmt_checks trueBranch h (hl.behind hno) hs).bind_quiet
    intro t ht
    refine .pure ht fun hkt hkc => ⟨⟨hkc.1, hkt.1⟩, ?_⟩
    rw [Stmt.compared, Stmt.comparisons, hkc.2, hkt.2]
  | .ifElse condition trueBranch falseBranch, env, _, _, _, h, hl, hs => by
    have hno l := Expr.no_define id l condition
    simp only [Stmt.marks, List.append_assoc] at hl
    have htrips : Trips env.chain (condition.comparisons env true) ∨
        (Trips env.chain (trueBranch.comparisons true env) ∨
          Trips env.chain (falseBranch.comparisons true env)) ↔
        Trips env.chain
          ((Stmt.ifElse condition trueBranch falseBranch).comparisons true env) := by
      simp only [Stmt.comparisons, trips_append, or_assoc]
    apply (checkTestExpr_checks h condition (hl.left.covers hno)).bind htrips
    intro c _
    have hrest := hl.behind hno
    apply (visitStmt_checks trueBranch h hrest.left hs.1).bind Iff.rfl
    intro t ht
    have hright := hrest.right fun l hl => (Stmt.mem_marks (P := Built) id trueBranch).mp hl
    apply (visitStmt_checks falseBranch h hright hs.2).bind_quiet
    intro f hf
    refine .pure (by rw [Stmt.defs, Stmt.defs, ht, hf]) fun hkf hkt hkc => ⟨⟨hkc.1, hkt.1, ?_⟩, ?_⟩
    · rw [ht]
      exact hkf.1
    · rw [Stmt.compared, Stmt.comparisons, hkc.2, hkt.2, hkf.2]
  | .breakStmt, _, _, _, _, _, _, _ => by
    rw [Stmt.comparisons, trips_nil]
    apply (checks_issueIf _ _).quiet_bind
    intro _ _
    exact .pure rfl fun hn => ⟨Nat.pos_of_ne_zero hn, rfl⟩
  | .print exprs, _, _, _, _, h, hl, _ => by
    apply (visitPrinted_checks h exprs (hl.covers fun l => Exprs.no_define id l exprs)).bind_quiet
    intro x _
    exact .pure rfl id
  | .ret expr, _, _, _, _, h, hl, _ => by
    have hno l : Mark.define l ∉ optionMarks (Expr.marks id) expr :=
      optionMarks_no_define (fun e => Expr.no_define id l e) expr
    apply (visitReturn_checks h expr (hl.covers hno)).bind_quiet
    intro x _
    exact .pure rfl id

theorem visitStmts_checks : ∀ (ss : Stmts Built) {env : Env} {defined : List Nat}
    {pre post : List Mark}, EnvOk env k → Located env defined pre (ss.marks id) post → ss.Scoped →
    Checks (visitStmts env ss) (Trips env.chain (ss.comparisons true env)) (fun x => x.defs = ss.defs)
      fun x => x.Ready k env.breaks defined ∧ x.compared = ss.comparisons false env
  | .nil, _, _, _, _, _, _, _ => by
    rw [Stmts.comparisons, trips_nil]
    exact .pure rfl ⟨trivial, rfl⟩
  | .cons s ss, _, _, _, _, h, hl, hs => by
    apply (visitStmt_checks s h hl.left hs.1).bind trips_append.symm
    intro x hx
    have hright := hl.right fun l hl => (Stmt.mem_marks (P := Built) id s).mp hl
    apply (visitStmts_checks ss h hright hs.2).bind_quiet
    intro xs hxs
    refine .pure (by rw [Stmts.defs, Stmts.defs, hx, hxs]) fun hks hk => ⟨⟨hk.1, ?_⟩, ?_⟩
    · rw [hx]
      exact hks.1
    · rw [Stmts.compared, Stmts.comparisons, hk.2, hks.2]

end

end

/-! ## Classes -/

/-- The scopes and the symbols that a method without an error has. -/
structure MethodOk (m : MethodDef Built) : Prop where
  statik : m.symbol.statik = m.statik
  declared : m.symbol.definedIn.isSome
  func : (ExprType.ty m.symbol.type.returnType).sound
  formals : ∀ v ∈ m.associatedScope, v.definedIn = some .FORMAL ∧ v.type.sound ∧ v.loc ∈ m.placed
  this : m.statik = false → (m.associatedScope.find? fun v => v.name = "this").isSome
  symbols : ∀ d ∈ m.formals, d.symbol.loc = d.loc
  bodyScope : ScopeOk m.bodyScope m.body.defs
  body : m.body.Scoped
  ordered : (m.body.marks id).Pairwise fun a b => a.loc < b.loc

/-- The symbols of a program without an error, with the methods that stand in it. -/
structure SymbolsOk (r : BuildSym.Result) (k : Known) : Prop where
  vars : ∀ c v, .var v ∈ r.scopes c → v.definedIn = some .CLASS ∧ v.type.sound
  funcs : ∀ c f, .func f ∈ r.scopes c → FuncOk k f
  classes : ∀ name c, r.globals.lookupClass name = some c → c < k.classes

section

variable {r : BuildSym.Result} {k : Known}

theorem SymbolsOk.env (hr : SymbolsOk r k) (c : ClassId) {m : MethodDef Built} (hm : MethodOk m) :
    EnvOk (methodEnv r c m) { k with statik := m.statik } where
  locals vs hvs v hv := by
    obtain rfl := List.mem_singleton.mp hvs
    exact ⟨(hm.bodyScope v hv).1, (hm.bodyScope v hv).2.1⟩
  formals v hv := ⟨(hm.formals v hv).1, (hm.formals v hv).2.1⟩
  vars := hr.vars
  funcs d f hf := ⟨(hr.funcs d f hf).known, (hr.funcs d f hf).result, (hr.funcs d f hf).args⟩
  classes := hr.classes
  statik := hm.statik
  result := hm.func

theorem MethodOk.located {m : MethodDef Built} (hm : MethodOk m) (c : ClassId) :
    Located (methodEnv r c m) m.placed [] (m.body.marks id) [] where
  formals v hv := (hm.formals v hv).2.2
  ordered := by simpa using hm.ordered
  locals vs hvs v hv := by
    obtain rfl := List.mem_singleton.mp hvs
    simpa using (Stmts.mem_marks (P := Built) id m.body).mpr (hm.bodyScope v hv).2.2
  pre l hl := by simp at hl

theorem checkedMethod_placed (m : MethodDef Built) (body : Stmts Checked) :
    (checkedMethod m body).placed = m.placed := by
  simp only [MethodDef.placed, checkedMethod, List.map_map]
  rfl

theorem checkedMethod_ready {m : MethodDef Built} (hm : MethodOk m) (hk : m.symbol ∈ k.methods)
    {body : Stmts Checked} (hb : body.Ready { k with statik := m.statik } 0 m.placed) :
    (checkedMethod m body).Ready k where
  known := hk
  statik := hm.statik
  declared := hm.declared
  this := hm.this
  formals v hv := by
    rw [checkedMethod_placed]
    exact (hm.formals v hv).2.2
  symbols d hd := by
    obtain ⟨e, he, rfl⟩ := List.mem_map.mp hd
    exact hm.symbols e he
  body := by
    rw [checkedMethod_placed]
    exact hb

theorem visitMethodDef_checks (hr : SymbolsOk r k) (c : ClassId) {m : MethodDef Built}
    (hm : MethodOk m) (hk : m.symbol ∈ k.methods) :
    Checks (visitMethodDef r c m) (Trips r.chain (m.body.comparisons true (methodEnv r c m)))
      (fun x => x.symbol = m.symbol)
      fun x => x.Ready k ∧ x.body.compared = m.body.comparisons false (methodEnv r c m) := by
  apply (visitStmts_checks m.body (hr.env c hm) (hm.located c) hm.body).bind_quiet
  intro body _
  exact .pure rfl fun hb => ⟨checkedMethod_ready hm hk hb.1, hb.2⟩

def FieldOk (k : Known) : Field Built → Prop
  | .var d => d.symbol.definedIn.isSome
  | .method m => MethodOk m ∧ m.symbol ∈ k.methods

theorem visitFields_checks (hr : SymbolsOk r k) (c : ClassId) : ∀ (fields : List (Field Built)),
    (∀ f ∈ fields, FieldOk k f) →
    Checks (visitFields r c fields)
      (Trips r.chain (fields.flatMap (Field.comparisons true r c)))
      (fun xs => xs.filterMap Field.symbol? = fields.filterMap Field.symbol?)
      fun xs => (∀ x ∈ xs, x.Ready k) ∧
        xs.flatMap Field.compared = fields.flatMap (Field.comparisons false r c)
  | [], _ => by
    rw [List.flatMap_nil, trips_nil]
    exact .pure rfl ⟨by simp, rfl⟩
  | .var d :: fields, h => by
    rw [List.flatMap_cons, Field.comparisons, List.nil_append]
    apply (visitFields_checks hr c fields fun f hf => h f (List.mem_cons_of_mem _ hf)).bind_quiet
    intro xs hxs
    refine .pure hxs fun hk => ⟨?_, hk.2⟩
    rw [List.forall_mem_cons]
    exact ⟨h _ List.mem_cons_self, hk.1⟩
  | .method m :: fields, h => by
    obtain ⟨hm, hmem⟩ := h _ List.mem_cons_self
    apply (visitMethodDef_checks hr c hm hmem).bind trips_append.symm
    intro x hx
    apply (visitFields_checks hr c fields fun f hf => h f (List.mem_cons_of_mem _ hf)).bind_quiet
    intro xs hxs
    refine .pure ?_ fun hks hk => ⟨?_, ?_⟩
    · simp only [List.filterMap_cons, Field.symbol?, hx, hxs]
    · rw [List.forall_mem_cons]
      exact ⟨hk.1, hks.1⟩
    · rw [List.flatMap_cons, List.flatMap_cons, hks.2]
      exact congrArg (· ++ _) hk.2

theorem visitClassDefs_checks (hr : SymbolsOk r k) : ∀ (cds : List (ClassDef Built)) (c : ClassId),
    (∀ cd ∈ cds, ∀ f ∈ cd.fields, FieldOk k f) →
    Checks (visitClassDefs r cds c) (Trips r.chain (classComparisons true r cds c))
      (fun xs => xs.map ClassDef.heading = cds.map ClassDef.heading)
      fun xs => (∀ x ∈ xs, x.Ready k) ∧
        xs.flatMap ClassDef.compared = classComparisons false r cds c
  | [], _, _ => by
    rw [classComparisons, trips_nil]
    exact .pure rfl ⟨by simp, rfl⟩
  | cd :: cds, c, h => by
    rw [List.forall_mem_cons] at h
    apply (visitFields_checks hr c cd.fields h.1).bind trips_append.symm
    intro fields hf
    apply (visitClassDefs_checks hr cds (c + 1) h.2).bind_quiet
    intro xs hxs
    refine .pure ?_ fun hks hk => ⟨?_, ?_⟩
    · rw [List.map_cons, List.map_cons, hxs, ClassDef.heading, hf]
      rfl
    · rw [List.forall_mem_cons]
      exact ⟨hk.1, hks.1⟩
    · rw [List.flatMap_cons, hks.2]
      exact congrArg (· ++ _) hk.2

/-- The checker throws exactly at a comparison that trips it. A program without an error is ready for
the translater, with the comparisons that the rules give it. -/
theorem visitTopLevel_checks (hr : SymbolsOk r k)
    (h : ∀ cd ∈ r.classes, ∀ f ∈ cd.fields, FieldOk k f) :
    Checks (visitTopLevel r) (Trips r.chain (r.comparisons true))
      (fun xs => xs.map ClassDef.heading = r.classes.map ClassDef.heading)
      fun xs => (∀ x ∈ xs, x.Ready k) ∧ xs.flatMap ClassDef.compared = r.comparisons false :=
  visitClassDefs_checks hr r.classes 0 h

end

end TypeCheck

end nehcpu.decaf
