-- `TransPass2` over the trees that the checker has passed: it fails exactly at an `==` or `!=` whose
-- sides have no values. From it, which programs get through all four passes.
import Nehcpu.Decaf.VTables

namespace nehcpu.decaf

open command

/-! ## Comparisons without operands -/

/-- In one of the comparisons the sides have no values. -/
def Blank (xs : List Comparison) : Prop := ∃ x ∈ xs, x.hasNoOperands = true

section

variable {xs ys : List Comparison} {s t : ExprType}

@[simp] theorem blank_nil : Blank [] ↔ False := by simp [Blank]

@[simp] theorem blank_append : Blank (xs ++ ys) ↔ Blank xs ∨ Blank ys := by
  simp [Blank, or_and_right, exists_or]

@[simp] theorem blank_singleton {x : Comparison} : Blank [x] ↔ x.hasNoOperands = true := by
  simp [Blank]

theorem blank_flatMap {α : Type} (f : α → List Comparison) (as : List α) :
    Blank (as.flatMap f) ↔ ∃ a ∈ as, Blank (f a) := by
  induction as with
  | nil => simp
  | cons a as ih => rw [List.flatMap_cons, blank_append, ih, List.exists_mem_cons_iff]

theorem ExprType.isFuncType_of_hasValue (h : t.hasValue) : t.isFuncType = false := by
  cases t with
  | ty t => rfl
  | func f => simp [hasValue] at h

/-- What `==` compares has values on both sides or on none. -/
theorem matched.hasNoOperands (h : matched s t) :
    Comparison.hasNoOperands ⟨s, t⟩ = !s.hasValue ∧ t.hasValue = s.hasValue := by
  rcases h with ⟨hs, ht⟩ | ⟨hs, ht⟩ | ⟨rfl, rfl⟩
  · cases s with
    | func f => simp [ExprType.hasValue] at hs
    | ty a =>
      have hne : a ≠ .VOID := by simpa [ExprType.hasValue] using hs
      cases t <;> simp [Comparison.hasNoOperands, hs, ht, hne]
  · cases s with
    | ty a => simp [ExprType.isFuncType] at hs
    | func f =>
      cases t with
      | ty b => simp [ExprType.isFuncType] at ht
      | func g => exact ⟨rfl, rfl⟩
  · exact ⟨rfl, rfl⟩

/-- Where the code of a binary expression lacks an operand. -/
theorem binary_blank {b : Bool} {p q : Prop}
    (h : if b then matched s t else s.hasValue = true ∧ t.hasValue = true) :
    (p ∨ s.isFuncType = true) ∨ ((q ∨ t.isFuncType = true) ∨
        (s.hasValue = false ∨ t.hasValue = false)) ↔
      (p ∨ q) ∨ Blank (if b then [⟨s, t⟩] else []) := by
  have hs : s.hasValue = true → s.isFuncType = false := ExprType.isFuncType_of_hasValue
  have ht : t.hasValue = true → t.isFuncType = false := ExprType.isFuncType_of_hasValue
  cases b with
  | false => simp [hs h.1, ht h.2, h.1, h.2]
  | true =>
    obtain ⟨hno, hsame⟩ := h.hasNoOperands
    rw [if_pos rfl, blank_singleton, hno, hsame]
    rw [hsame] at ht
    cases hv : s.hasValue with
    | false => simp
    | true => simp [hs hv, ht hv]

end

namespace TransPass2

/-! ## What the pass finds -/

/-- The temps of the variables, the labels of the methods, and the tables and the routines of the
classes. -/
structure Stocked (k : Known) (stock : List Nat) (s : Output) : Prop where
  temps : ∀ loc ∈ stock, (s.temp loc).isSome = true
  labels : ∀ f ∈ k.methods, (s.functy f).isSome = true
  tables : ∀ c < k.classes, (s.vtable c).isSome = true
  routines : ∀ c < k.classes, (s.newFuncLabel c).isSome = true

/-- There is a temp if the type is that of a value. -/
structure Valued (k : Known) (stock : List Nat) (t : ExprType) (v : Option Temp) (s : Output) :
    Prop where
  value : v.isSome = t.hasValue
  stocked : Stocked k stock s

/-- A value that is used. -/
structure Got (k : Known) (stock : List Nat) (v : Option Temp) (s : Output) : Prop where
  some : v.isSome = true
  stocked : Stocked k stock s

/-- The values that an assignment reads of its left side. -/
structure PlaceGot (k : Known) (stock : List Nat) (left : LValue Note) (place : Place) (s : Output) :
    Prop where
  val : place.val.isSome = true
  base : left.node.lvKind = some .MEMBER_VAR ∨ left.node.lvKind = some .ARRAY_ELEMENT →
    place.base.isSome = true
  index : left.node.lvKind = some .ARRAY_ELEMENT → place.index.isSome = true
  stocked : Stocked k stock s

section

variable {k : Known} {stock : List Nat} {s : Output} {α : Type} {xs : List Comparison} {t : ExprType}

theorem Stocked.setTr (h : Stocked k stock s) (tr : Translater) :
    Stocked k stock { s with tr := tr } :=
  ⟨h.temps, h.labels, h.tables, h.routines⟩

theorem Stocked.mono {stock' : List Nat} (h : Stocked k stock s)
    (hsub : ∀ loc ∈ stock', loc ∈ stock) : Stocked k stock' s :=
  ⟨fun loc hloc => h.temps loc (hsub loc hloc), h.labels, h.tables, h.routines⟩

/-- A variable gets its temp. -/
theorem Stocked.setTemp (h : Stocked k stock s) (loc : Nat) (x : Temp) :
    Stocked k (stock ++ [loc]) { s with temp := Function.update s.temp loc (some x) } := by
  refine ⟨fun l hl => ?_, h.labels, h.tables, h.routines⟩
  by_cases heq : l = loc
  · simp [heq]
  · have hmem : l ∈ stock := by simpa [heq] using hl
    simpa [Function.update_of_ne heq] using h.temps l hmem

/-- Where there is no comparison. -/
theorem quiet_blank {c : Pass α} {Q : α → Output → Prop} (h : c.FailsIff False Q s) :
    c.FailsIff (Blank []) Q s :=
  h.imp blank_nil.symm fun _ _ hq => hq

theorem stocked_emit (h : Stocked k stock s) (c : Trans α) :
    (emit c).FailsIff False (fun _ u => Stocked k stock u) s :=
  ⟨id, h.setTr _⟩

theorem failsIff_deref {x : Option α} {a : α} (h : x = some a) :
    (deref x).FailsIff False (fun b u => a = b ∧ u = s) s := by
  subst h
  exact ⟨id, rfl, rfl⟩

theorem failsIff_operand (v : Option Temp) :
    (operand v).FailsIff (v.isSome = false) (fun x u => v = some x ∧ u = s) s := by
  cases v with
  | none => exact rfl
  | some x => exact ⟨by simp, rfl, rfl⟩

/-- An operand that is there. -/
theorem operand_got {v : Option Temp} (h : v.isSome = true) :
    (operand v).FailsIff False (fun _ u => u = s) s :=
  (failsIff_operand v).imp (by simp [h]) fun _ _ hx => hx.2

theorem failsIff_orThrow {x : Except Fault α} {a : α} (h : x = .ok a) :
    (orThrow x : Pass α).FailsIff False (fun b u => a = b ∧ u = s) s := by
  subst h
  exact ⟨id, rfl, rfl⟩

/-- The result of a call. -/
theorem stocked_directCall (h : Stocked k stock s) (label : Label) (t : Ty) :
    (emit (genDirectCall label t)).FailsIff False (Valued k stock (.ty t)) s := by
  refine ⟨id, ?_, h.setTr _⟩
  by_cases hvoid : t = .VOID
  · subst hvoid
    rfl
  · simp only [genDirectCall, resultTemp, ExprType.hasValue, ne_eq, hvoid]
    rfl

theorem stocked_indirectCall (h : Stocked k stock s) (func : Temp) (t : Ty) :
    (emit (genIndirectCall func t)).FailsIff False (Valued k stock (.ty t)) s := by
  refine ⟨id, ?_, h.setTr _⟩
  by_cases hvoid : t = .VOID
  · subst hvoid
    rfl
  · simp only [genIndirectCall, resultTemp, ExprType.hasValue, ne_eq, hvoid]
    rfl

/-- An instruction with a result. -/
theorem got_emit (h : Stocked k stock s) (c : Trans Temp) :
    (do
      let t ← emit c
      pure (some t) : Pass (Option Temp)).FailsIff False (Got k stock) s := by
  apply (stocked_emit h c).quiet_bind
  intro x u hu
  exact Cmd.failsIff_pure ⟨rfl, hu⟩

theorem onBoth_fails (h : Stocked k stock s) (gen : Temp → Temp → Trans Temp)
    (l r : Option Temp) :
    (onBoth gen l r).FailsIff (l.isSome = false ∨ r.isSome = false) (Got k stock) s := by
  unfold onBoth
  apply (failsIff_operand l).bind Iff.rfl
  rintro a _ - ⟨-, rfl⟩
  apply (failsIff_operand r).bind_quiet
  rintro b _ - ⟨-, rfl⟩
  exact got_emit h _

theorem onOne_got {v : Option Temp} (h : Got k stock v s) (gen : Temp → Trans Temp) :
    (onOne gen v).FailsIff False (Got k stock) s := by
  unfold onOne
  apply (operand_got h.some).quiet_bind
  rintro a _ rfl
  exact got_emit h.stocked _

theorem genBinaryTag_fails (h : Stocked k stock s) (tag : BinaryTag) (leftType rightType : ExprType)
    (l r : Option Temp) :
    (genBinaryTag tag leftType rightType l r).FailsIff (l.isSome = false ∨ r.isSome = false)
      (Got k stock) s := by
  have hequ : (genEquNeq tag leftType rightType l r).FailsIff (l.isSome = false ∨ r.isSome = false)
      (Got k stock) s := by
    unfold genEquNeq
    split
    · exact onBoth_fails h _ l r
    · split <;> exact onBoth_fails h _ l r
  cases tag with
  | EQ | NE => exact hequ
  | _ => exact onBoth_fails h _ l r

theorem genParms_got {vs : List (Option Temp)} (hvs : ∀ v ∈ vs, v.isSome = true)
    (h : Stocked k stock s) : (genParms vs).FailsIff False (fun _ u => Stocked k stock u) s := by
  induction vs generalizing s with
  | nil => exact Cmd.failsIff_pure h
  | cons v vs ih =>
    rw [List.forall_mem_cons] at hvs
    unfold genParms
    apply (operand_got hvs.1).quiet_bind
    rintro x _ rfl
    apply (stocked_emit h _).quiet_bind
    intro _ u hu
    exact ih hvs.2 hu

/-- The value of a symbol whose variable has been defined. -/
theorem symbolTemp_got (h : Stocked k stock s) {x : Option Variable} {v : Variable}
    (hx : x = some v) (hv : v.loc ∈ stock) : (symbolTemp x).FailsIff False (Got k stock) s := by
  unfold symbolTemp
  apply (failsIff_deref hx).quiet_bind
  rintro _ _ ⟨rfl, rfl⟩
  exact ⟨id, h.temps _ hv, h⟩

/-- An expression whose type is that of a value. -/
theorem valued_of_got {c : Pass (Option Temp)} (ht : t.hasValue = true)
    (h : c.FailsIff (Blank xs) (Got k stock) s) :
    c.FailsIff (Blank xs ∨ t.isFuncType = true) (Valued k stock t) s := by
  refine h.imp ?_ fun v u hv => ⟨by rw [hv.some, ht], hv.stocked⟩
  rw [ExprType.isFuncType_of_hasValue ht]
  simp

theorem got_of_valued {c : Pass (Option Temp)} (ht : t.hasValue = true)
    (h : c.FailsIff (Blank xs ∨ t.isFuncType = true) (Valued k stock t) s) :
    c.FailsIff (Blank xs) (Got k stock) s := by
  refine h.imp ?_ fun v u hv => ⟨by rw [hv.value, ht], hv.stocked⟩
  rw [ExprType.isFuncType_of_hasValue ht]
  simp

theorem not_isFuncType_of_ready {k : Known} {defined : List Nat} {c : Call Note}
    (h : c.Ready k defined) : c.node.type.isFuncType = false := by
  cases c with
  | call node method actuals =>
    obtain ⟨-, ⟨f, -, -, ht⟩, -⟩ := h
    simp [Call.node, ht, ExprType.isFuncType]
  | callOn node receiver method actuals =>
    obtain ⟨-, ⟨-, ht⟩ | ⟨-, ⟨f, -, -, ht⟩, -⟩⟩ := h
    · exact ExprType.isFuncType_of_hasValue ht
    · simp [Call.node, ht, ExprType.isFuncType]

end

/-! ## Expressions -/

section

variable {k : Known} {defined stock : List Nat} {x : Context}

mutual

/-- The visit of an lvalue. The name of a method is none. -/
theorem visitLValue_fails (hthis : k.statik = false → x.currentThis.isSome = true)
    (hsub : ∀ loc ∈ defined, loc ∈ stock) : ∀ (left : LValue Note) {s : Output}, left.Ready k defined →
    Stocked k stock s →
    (visitLValue x left).FailsIff (Blank left.compared ∨ left.type.isFuncType = true)
      (PlaceGot k stock left) s
  | .ident node name, s, hr, hs => by
    unfold visitLValue
    rcases hr with ⟨hk, ht⟩ | ⟨hk, hv, v, hx, hd⟩
    · rw [hk]
      exact Cmd.failsIff_throw (.inr ht)
    · have hgot : (do
          let val ← symbolTemp node.varSymbol
          pure ⟨val, none, none⟩ : Pass Place).FailsIff False
            (PlaceGot k stock (.ident node name)) s := by
        apply (symbolTemp_got hs hx (hsub _ hd)).quiet_bind
        intro val u hval
        refine Cmd.failsIff_pure ⟨hval.some, fun hbase => ?_, fun hindex => ?_, hval.stocked⟩
        · rcases hk with hk | hk <;> simp [LValue.node, hk] at hbase
        · rcases hk with hk | hk <;> simp [LValue.node, hk] at hindex
      have hbad : False ↔ Blank (LValue.ident node name).compared ∨
          (LValue.ident node name).type.isFuncType = true := by
        rw [show (LValue.ident node name).type = node.type from rfl,
          ExprType.isFuncType_of_hasValue hv]
        simp [LValue.compared]
      rcases hk with hk | hk
      · rw [hk]
        exact hgot.imp hbad fun _ _ h => h
      · rw [hk]
        exact hgot.imp hbad fun _ _ h => h
  | .select node owner name, s, hr, hs => by
    unfold visitLValue
    rcases hr with ⟨hk, ht⟩ | ⟨hk, hv, hx, hro, hvo⟩
    · rw [hk]
      exact Cmd.failsIff_throw (.inr ht)
    · rw [hk]
      obtain ⟨w, hw⟩ := Option.isSome_iff_exists.mp hx
      have howner := got_of_valued hvo (visitExpr_fails hthis hsub owner hro hs)
      have hbad : Blank owner.compared ↔ Blank (LValue.select node owner name).compared ∨
          (LValue.select node owner name).type.isFuncType = true := by
        rw [show (LValue.select node owner name).type = node.type from rfl,
          ExprType.isFuncType_of_hasValue hv]
        simp [LValue.compared]
      refine Cmd.FailsIff.imp (p := Blank owner.compared) ?_ hbad fun _ _ h => h
      apply howner.bind_quiet
      intro base u _ hbase
      apply (failsIff_deref hw).quiet_bind
      rintro _ _ ⟨rfl, rfl⟩
      apply (Cmd.failsIff_get (P := fun a t => a = _ ∧ t = _) ⟨rfl, rfl⟩).quiet_bind
      rintro _ _ ⟨rfl, rfl⟩
      apply (onOne_got hbase _).quiet_bind
      intro val u' hval
      exact Cmd.failsIff_pure ⟨hval.some, fun _ => hbase.some,
        fun hi => by simp [LValue.node, hk] at hi, hval.stocked⟩
  | .indexed node array index, s, ⟨_, hv, ⟨hra, hva⟩, hri, hvi⟩, hs => by
    unfold visitLValue
    have hbad : Blank array.compared ∨ Blank index.compared ↔
        Blank (LValue.indexed node array index).compared ∨
          (LValue.indexed node array index).type.isFuncType = true := by
      rw [show (LValue.indexed node array index).type = node.type from rfl,
        ExprType.isFuncType_of_hasValue hv]
      simp [LValue.compared]
    apply (got_of_valued hva (visitExpr_fails hthis hsub array hra hs)).bind hbad
    intro a u _ ha
    apply (got_of_valued hvi (visitExpr_fails hthis hsub index hri ha.stocked)).bind_quiet
    intro i u' _ hi
    have hval : (onBoth decaf.visitIndexed a i).FailsIff False (Got k stock) u' :=
      (onBoth_fails hi.stocked _ a i).imp (by simp [ha.some, hi.some]) fun _ _ h => h
    apply hval.quiet_bind
    intro v u'' hv'
    exact Cmd.failsIff_pure ⟨hv'.some, fun _ => ha.some, fun _ => hi.some, hv'.stocked⟩

theorem visitCall_fails (hthis : k.statik = false → x.currentThis.isSome = true)
    (hsub : ∀ loc ∈ defined, loc ∈ stock) : ∀ (c : Call Note) {s : Output}, c.Ready k defined → Stocked k stock s →
    (visitCall x c).FailsIff (Blank c.compared) (Valued k stock c.node.type) s
  | .call node method actuals, s, ⟨hl, ⟨f, hf, hfs, ht⟩, ha⟩, hs => by
    unfold visitCall
    rw [if_neg (by simp [hl])]
    obtain ⟨label, hlabel⟩ := Option.isSome_iff_exists.mp (hs.labels f hf)
    apply (visitExprs_fails hthis hsub actuals ha hs).bind_quiet
    rintro vs u _ ⟨hvs, hu⟩
    apply (genParms_got hvs hu).quiet_bind
    intro _ u' hu'
    apply (failsIff_deref hfs).quiet_bind
    rintro _ _ ⟨rfl, rfl⟩
    apply (Cmd.failsIff_get (P := fun a t => a = _ ∧ t = _) ⟨rfl, rfl⟩).quiet_bind
    rintro _ _ ⟨rfl, rfl⟩
    obtain ⟨label, hlabel⟩ := Option.isSome_iff_exists.mp (hu'.labels _ hf)
    apply (failsIff_deref hlabel).quiet_bind
    rintro _ _ ⟨rfl, rfl⟩
    rw [show (Call.call node method actuals).node.type = .ty f.type.returnType from ht]
    exact stocked_directCall hu' _ _
  | .callOn node receiver method actuals, s, ⟨⟨hrr, hvr⟩, hcall⟩, hs => by
    have hrec := got_of_valued hvr (visitExpr_fails hthis hsub receiver hrr hs)
    unfold visitCall
    rcases hcall with ⟨hl, hv⟩ | ⟨hl, ⟨f, hf, hfs, ht⟩, ha⟩
    · rw [if_pos hl]
      have hbad : Blank receiver.compared ↔
          Blank (Call.callOn node receiver method actuals).compared := by
        simp [Call.compared, hl]
      refine Cmd.FailsIff.imp (p := Blank receiver.compared) ?_ hbad fun _ _ h => h
      apply hrec.bind_quiet
      intro v u _ hv'
      refine (onOne_got hv' _).imp Iff.rfl fun val u' hval => ⟨?_, hval.stocked⟩
      rw [hval.some]
      exact hv.symm
    · rw [if_neg (by simp [hl])]
      have hbad : Blank receiver.compared ∨ Blank actuals.compared ↔
          Blank (Call.callOn node receiver method actuals).compared := by
        simp [Call.compared, hl]
      apply hrec.bind hbad
      intro v u _ hv'
      apply (visitExprs_fails hthis hsub actuals ha hv'.stocked).bind_quiet
      rintro vs u' _ ⟨hvs, hu'⟩
      have hall : ∀ w ∈ v :: vs, w.isSome = true := by
        rw [List.forall_mem_cons]
        exact ⟨hv'.some, hvs⟩
      apply (genParms_got hall hu').quiet_bind
      intro _ u₂ hu₂
      apply (operand_got hv'.some).quiet_bind
      rintro base _ rfl
      apply (stocked_emit hu₂ _).quiet_bind
      intro vt u₃ hu₃
      apply (failsIff_deref hfs).quiet_bind
      rintro _ _ ⟨rfl, rfl⟩
      apply (Cmd.failsIff_get (P := fun a t => a = _ ∧ t = _) ⟨rfl, rfl⟩).quiet_bind
      rintro _ _ ⟨rfl, rfl⟩
      apply (stocked_emit hu₃ _).quiet_bind
      intro func u₄ hu₄
      rw [show (Call.callOn node receiver method actuals).node.type = .ty f.type.returnType from ht]
      exact stocked_indirectCall hu₄ _ _

/-- The visit of an expression. Where it is the name of a method it fails. -/
theorem visitExpr_fails (hthis : k.statik = false → x.currentThis.isSome = true)
    (hsub : ∀ loc ∈ defined, loc ∈ stock) : ∀ (e : Expr Note) {s : Output}, e.Ready k defined → Stocked k stock s →
    (visitExpr x e).FailsIff (Blank e.compared ∨ e.type.isFuncType = true)
      (Valued k stock e.type) s
  | .lvalue left, s, hr, hs => by
    unfold visitExpr
    apply (visitLValue_fails hthis hsub left hr hs).bind_quiet
    intro place u hbad hp
    have hm : left.type.isFuncType = false := by
      simpa using fun h => hbad (.inr h)
    exact Cmd.failsIff_pure ⟨hp.val.trans (TypeCheck.hasValue_of_ready hr hm).symm, hp.stocked⟩
  | .call c, s, hr, hs => by
    refine (visitCall_fails hthis hsub c hr hs).imp ?_ fun _ _ h => h
    rw [show (Expr.call c).type = c.node.type from rfl, not_isFuncType_of_ready hr]
    simp [Expr.compared]
  | .literal node value, s, hr, hs =>
    valued_of_got hr (quiet_blank (got_emit hs _))
  | .null node, s, hr, hs =>
    valued_of_got hr (quiet_blank (got_emit hs _))
  | .readInt node, s, hr, hs =>
    valued_of_got hr (quiet_blank (got_emit hs _))
  | .readLine node, s, hr, hs =>
    valued_of_got hr (quiet_blank (got_emit hs _))
  | .this node, s, ⟨hv, hk⟩, hs =>
    valued_of_got hv (quiet_blank (Cmd.failsIff_pure ⟨hthis hk, hs⟩))
  | .unary node tag e, s, ⟨hv, hre, hve⟩, hs => by
    unfold visitExpr
    refine valued_of_got hv ?_
    apply (got_of_valued hve (visitExpr_fails hthis hsub e hre hs)).bind_quiet
    intro val u _ hval
    cases tag with
    | NEG => exact onOne_got hval _
    | NOT => exact onOne_got hval _
  | .binary node tag left right, s, ⟨hv, hrl, hrr, hm⟩, hs => by
    unfold visitExpr
    refine valued_of_got hv ?_
    have hbad := binary_blank (p := Blank left.compared) (q := Blank right.compared) hm
    rw [← blank_append, ← blank_append] at hbad
    apply (visitExpr_fails hthis hsub left hrl hs).bind hbad
    intro l u _ hl
    apply (visitExpr_fails hthis hsub right hrr hl.stocked).bind Iff.rfl
    intro r u' _ hr
    rw [← hl.value, ← hr.value]
    exact genBinaryTag_fails hr.stocked tag left.type right.type l r
  | .newClass node className, s, ⟨hv, c, hc, hlt⟩, hs => by
    unfold visitExpr
    obtain ⟨label, hlabel⟩ := Option.isSome_iff_exists.mp (hs.routines c hlt)
    refine valued_of_got hv (quiet_blank ?_)
    apply (failsIff_deref hc).quiet_bind
    rintro _ _ ⟨rfl, rfl⟩
    apply (Cmd.failsIff_get (P := fun a t => a = _ ∧ t = _) ⟨rfl, rfl⟩).quiet_bind
    rintro _ _ ⟨rfl, rfl⟩
    simp only [hlabel]
    exact (stocked_directCall hs label .INT).imp Iff.rfl fun v u h => ⟨h.value, h.stocked⟩
  | .newArray node elementType length, s, ⟨hv, hrl, hvl⟩, hs => by
    unfold visitExpr
    refine valued_of_got hv ?_
    apply (got_of_valued hvl (visitExpr_fails hthis hsub length hrl hs)).bind_quiet
    intro val u _ hval
    exact onOne_got hval _
  | .typeTest node inst className, s, ⟨hv, ⟨c, hc, hlt⟩, hri, hvi⟩, hs => by
    unfold visitExpr
    refine valued_of_got hv ?_
    apply (got_of_valued hvi (visitExpr_fails hthis hsub inst hri hs)).bind_quiet
    intro val u _ hval
    obtain ⟨vtbl, hvtbl⟩ := Option.isSome_iff_exists.mp (hval.stocked.tables c hlt)
    apply (failsIff_deref hc).quiet_bind
    rintro _ _ ⟨rfl, rfl⟩
    apply (Cmd.failsIff_get (P := fun a t => a = _ ∧ t = _) ⟨rfl, rfl⟩).quiet_bind
    rintro _ _ ⟨rfl, rfl⟩
    simp only [hvtbl]
    exact onOne_got hval _
  | .typeCast node className e, s, ⟨hv, ⟨c, hc, hlt⟩, hre, hve⟩, hs => by
    unfold visitExpr
    refine valued_of_got hv ?_
    apply (got_of_valued hve (visitExpr_fails hthis hsub e hre hs)).bind_quiet
    intro val u _ hval
    obtain ⟨vtbl, hvtbl⟩ := Option.isSome_iff_exists.mp (hval.stocked.tables c hlt)
    obtain ⟨b, hb⟩ := ExprType.compatible_ty x.chain e.type (.cls c)
    apply (failsIff_deref hc).quiet_bind
    rintro _ _ ⟨rfl, rfl⟩
    apply (failsIff_orThrow hb).quiet_bind
    rintro _ _ ⟨rfl, rfl⟩
    cases b with
    | true => exact Cmd.failsIff_pure hval
    | false =>
      apply (Cmd.failsIff_get (P := fun a t => a = _ ∧ t = _) ⟨rfl, rfl⟩).quiet_bind
      rintro _ _ ⟨rfl, rfl⟩
      simp only [hvtbl]
      apply (operand_got hval.some).quiet_bind
      rintro w _ rfl
      apply (stocked_emit hval.stocked _).quiet_bind
      intro _ u' hu'
      exact Cmd.failsIff_pure ⟨hval.some, hu'⟩

theorem visitExprs_fails (hthis : k.statik = false → x.currentThis.isSome = true)
    (hsub : ∀ loc ∈ defined, loc ∈ stock) : ∀ (es : Exprs Note) {s : Output}, es.Ready k defined →
    Stocked k stock s →
    (visitExprs x es).FailsIff (Blank es.compared)
      (fun vs u => (∀ v ∈ vs, v.isSome = true) ∧ Stocked k stock u) s
  | .nil, s, _, hs => quiet_blank (Cmd.failsIff_pure ⟨by simp, hs⟩)
  | .cons e es, s, ⟨⟨hre, hve⟩, hres⟩, hs => by
    unfold visitExprs
    apply (got_of_valued hve (visitExpr_fails hthis hsub e hre hs)).bind blank_append.symm
    intro v u _ hv
    apply (visitExprs_fails hthis hsub es hres hv.stocked).bind_quiet
    rintro vs u' _ ⟨hvs, hu'⟩
    refine Cmd.failsIff_pure ⟨?_, hu'⟩
    rw [List.forall_mem_cons]
    exact ⟨hv.some, hvs⟩

end

end

/-! ## Statements -/

/-- What the pass knows inside a method: `this` where it may be used, and the loops around. -/
structure Inside (x : Context) (k : Known) (breaks : Nat) : Prop where
  this : k.statik = false → x.currentThis.isSome = true
  exits : 0 < breaks → x.loopExits ≠ []

section

variable {k : Known} {defined stock : List Nat} {x : Context} {breaks : Nat} {s : Output}

theorem Inside.loop (h : Inside x k breaks) (exit : Label) :
    Inside { x with loopExits := exit :: x.loopExits } k (breaks + 1) :=
  ⟨h.this, fun _ => List.cons_ne_nil _ _⟩

theorem visitUsed_fails (h : Inside x k breaks) (hsub : ∀ loc ∈ defined, loc ∈ stock)
    {e : Expr Note} (he : e.Used k defined) (hs : Stocked k stock s) :
    (visitExpr x e).FailsIff (Blank e.compared) (Got k stock) s :=
  got_of_valued he.2 (visitExpr_fails h.this hsub e he.1 hs)

theorem visitAssign_fails (h : Inside x k breaks) (hsub : ∀ loc ∈ defined, loc ∈ stock)
    {left : LValue Note} {e : Expr Note} (hl : left.Ready k defined) (hv : left.type.hasValue)
    (he : e.Used k defined) (hs : Stocked k stock s) :
    (visitAssign x left e).FailsIff (Blank (left.compared ++ e.compared))
      (fun _ u => Stocked k stock u) s := by
  have hplace : (visitLValue x left).FailsIff (Blank left.compared) (PlaceGot k stock left) s := by
    refine (visitLValue_fails h.this hsub left hl hs).imp ?_ fun _ _ h => h
    simp [ExprType.isFuncType_of_hasValue hv]
  have hno : ¬ left.node.isMethod := by
    intro hm
    have := ExprType.isFuncType_of_hasValue hv
    rw [show left.type = left.node.type from rfl, hm.2] at this
    cases this
  unfold visitAssign
  apply hplace.bind blank_append.symm
  intro place u _ hp
  apply (visitUsed_fails h hsub he hp.stocked).bind_quiet
  intro val u' _ hval
  cases left with
  | ident node name =>
    obtain ⟨hk, -, v, hx, hd⟩ := hl.resolve_left hno
    have hassign : (do
        let dst ← symbolTemp node.varSymbol
        let dst ← operand dst
        let src ← operand val
        emit (genAssign dst src) : Pass Unit).FailsIff False (fun _ u => Stocked k stock u) u' := by
      apply (symbolTemp_got hval.stocked hx (hsub _ hd)).quiet_bind
      intro dst u₂ hdst
      apply (operand_got hdst.some).quiet_bind
      rintro d _ rfl
      apply (operand_got hval.some).quiet_bind
      rintro src _ rfl
      exact stocked_emit hdst.stocked _
    rcases hk with hk | hk
    · rw [show (LValue.ident node name).node.lvKind = some .LOCAL_VAR from hk]
      exact hassign
    · rw [show (LValue.ident node name).node.lvKind = some .PARAM_VAR from hk]
      exact hassign
  | select node owner name =>
    obtain ⟨hk, -, hx, -, -⟩ := hl.resolve_left hno
    obtain ⟨v, hv'⟩ := Option.isSome_iff_exists.mp hx
    rw [show (LValue.select node owner name).node.lvKind = some .MEMBER_VAR from hk]
    apply (operand_got hval.some).quiet_bind
    rintro src _ rfl
    apply (operand_got (hp.base (.inl hk))).quiet_bind
    rintro base _ rfl
    apply (failsIff_deref hv').quiet_bind
    rintro _ _ ⟨rfl, rfl⟩
    apply (Cmd.failsIff_get (P := fun a t => a = _ ∧ t = _) ⟨rfl, rfl⟩).quiet_bind
    rintro _ _ ⟨rfl, rfl⟩
    exact stocked_emit hval.stocked _
  | indexed node array index =>
    obtain ⟨hk, -⟩ := hl
    rw [show (LValue.indexed node array index).node.lvKind = some .ARRAY_ELEMENT from hk]
    apply (operand_got (hp.index hk)).quiet_bind
    rintro i _ rfl
    apply (operand_got (hp.base (.inr hk))).quiet_bind
    rintro a _ rfl
    apply (stocked_emit hval.stocked _).quiet_bind
    intro base u₂ hu₂
    apply (operand_got hval.some).quiet_bind
    rintro src _ rfl
    exact stocked_emit hu₂ _

theorem visitSimple_fails (h : Inside x k breaks) (hsub : ∀ loc ∈ defined, loc ∈ stock)
    {c : Simple Note} (hr : c.Ready k defined) (hs : Stocked k stock s) :
    (visitSimple x c).FailsIff (Blank c.compared) (fun _ u => Stocked k stock u) s := by
  cases c with
  | assign left e => exact visitAssign_fails h hsub hr.1.1 hr.1.2 hr.2 hs
  | exec c =>
    apply (visitCall_fails h.this hsub c hr hs).bind_quiet
    intro v u _ hv
    exact Cmd.failsIff_pure hv.stocked

theorem visitOption_fails (h : Inside x k breaks) (hsub : ∀ loc ∈ defined, loc ∈ stock)
    {c : Option (Simple Note)} (hr : optionAll (Simple.Ready k defined) c)
    (hs : Stocked k stock s) :
    (visitOption (visitSimple x) c).FailsIff (Blank (optionComparisons Simple.compared c))
      (fun _ u => Stocked k stock u) s := by
  cases c with
  | none => exact quiet_blank (Cmd.failsIff_pure hs)
  | some c => exact visitSimple_fails h hsub hr hs

theorem visitPrint_fails (h : Inside x k breaks) (hsub : ∀ loc ∈ defined, loc ∈ stock) :
    ∀ (es : Exprs Note) {s : Output}, es.Ready k defined → Stocked k stock s →
    (visitPrint x es).FailsIff (Blank es.compared) (fun _ u => Stocked k stock u) s
  | .nil, s, _, hs => quiet_blank (Cmd.failsIff_pure hs)
  | .cons e es, s, hr, hs => by
    unfold visitPrint
    apply (visitUsed_fails h hsub hr.1 hs).bind blank_append.symm
    intro v u _ hv
    apply (operand_got hv.some).quiet_bind
    rintro t _ rfl
    apply (stocked_emit hv.stocked _).quiet_bind
    intro _ u₂ hu₂
    apply (stocked_emit hu₂ _).quiet_bind
    intro _ u₃ hu₃
    exact visitPrint_fails h hsub es hr.2 hu₃

theorem visitReturn_fails (h : Inside x k breaks) (hsub : ∀ loc ∈ defined, loc ∈ stock)
    {e : Option (Expr Note)} (hr : optionAll (Expr.Used k defined) e) (hs : Stocked k stock s) :
    (visitReturn x e).FailsIff (Blank (optionComparisons Expr.compared e))
      (fun _ u => Stocked k stock u) s := by
  cases e with
  | none => exact quiet_blank (stocked_emit hs _)
  | some e =>
    apply (visitUsed_fails h hsub hr hs).bind_quiet
    intro v u _ hv
    apply (operand_got hv.some).quiet_bind
    rintro t _ rfl
    exact stocked_emit hv.stocked _

theorem visitCondition_fails (h : Inside x k breaks) (hsub : ∀ loc ∈ defined, loc ∈ stock)
    {e : Expr Note} (he : e.Used k defined) (hs : Stocked k stock s) :
    (visitCondition x e).FailsIff (Blank e.compared) (fun _ u => Stocked k stock u) s := by
  unfold visitCondition
  apply (visitUsed_fails h hsub he hs).bind_quiet
  intro v u _ hv
  apply (stocked_emit hv.stocked _).quiet_bind
  intro exit u₂ hu₂
  apply (operand_got hv.some).quiet_bind
  rintro t _ rfl
  apply (stocked_emit hu₂ _).quiet_bind
  intro _ u₃ hu₃
  exact Cmd.failsIff_pure hu₃

theorem visitVarDef_fails {d : VarDef Checked} (hd : d.symbol.definedIn.isSome = true)
    (hs : Stocked k stock s) :
    (visitVarDef d).FailsIff False (fun _ u => Stocked k stock u ∧
      (d.symbol.definedIn = some .LOCAL → Stocked k (stock ++ [d.symbol.loc]) u)) s := by
  obtain ⟨kind, hkind⟩ := Option.isSome_iff_exists.mp hd
  unfold visitVarDef
  apply (failsIff_deref hkind).quiet_bind
  rintro _ _ ⟨rfl, rfl⟩
  split
  · apply (stocked_emit hs _).quiet_bind
    intro t u hu
    have hnew := hu.setTemp d.symbol.loc t
    exact Cmd.failsIff_modify ⟨hnew.mono fun _ => List.mem_append_left _, fun _ => hnew⟩
  · next hlocal =>
    refine Cmd.failsIff_pure ⟨hs, fun h => absurd ?_ hlocal⟩
    rw [hkind, Option.some_inj] at h
    exact h

theorem mem_append_of_sub {xs : List Nat} (hsub : ∀ loc ∈ defined, loc ∈ stock) :
    ∀ loc ∈ defined ++ xs, loc ∈ stock ++ xs := by
  intro loc hloc
  rcases List.mem_append.mp hloc with hloc | hloc
  · exact List.mem_append_left _ (hsub loc hloc)
  · exact List.mem_append_right _ hloc

mutual

theorem visitStmt_fails : ∀ (stmt : Stmt Checked) {x : Context} {breaks : Nat}
    {defined stock : List Nat} {s : Output}, Inside x k breaks →
    (∀ loc ∈ defined, loc ∈ stock) → stmt.Ready k breaks defined → Stocked k stock s →
    (visitStmt x stmt).FailsIff (Blank stmt.compared)
      (fun _ u => Stocked k (stock ++ stmt.defs) u) s
  | .varDef d, _, _, _, _, _, _, _, ⟨hlocal, hloc⟩, hs => by
    refine (visitVarDef_fails (by rw [hlocal]; rfl) hs).imp blank_nil.symm fun _ u hu => ?_
    rw [Stmt.defs, ← hloc]
    exact hu.2 hlocal
  | .skip, _, _, _, _, _, _, _, _, hs => by
    rw [Stmt.defs, List.append_nil]
    exact quiet_blank (Cmd.failsIff_pure hs)
  | .simple c, _, _, _, _, _, h, hsub, hr, hs => by
    rw [Stmt.defs, List.append_nil]
    exact visitSimple_fails h hsub hr hs
  | .block _ stmts, _, _, _, _, _, h, hsub, hr, hs => visitStmts_fails stmts h hsub hr hs
  | .whileLoop condition loopBody, _, _, _, _, _, h, hsub, ⟨hc, hb⟩, hs => by
    unfold visitStmt
    apply (stocked_emit hs _).quiet_bind
    intro loop u hu
    apply (stocked_emit hu _).quiet_bind
    intro _ u₂ hu₂
    apply (visitCondition_fails h hsub hc hu₂).bind blank_append.symm
    intro exit u₃ _ hu₃
    apply (visitStmt_fails loopBody (h.loop exit) hsub hb hu₃).bind_quiet
    intro _ u₄ _ hu₄
    apply (stocked_emit hu₄ _).quiet_bind
    intro _ u₅ hu₅
    exact stocked_emit hu₅ _
  | .forLoop init condition update loopBody, _, _, _, _, _, h, hsub, ⟨hi, hc, hu, hb⟩, hs => by
    have hbad : Blank (optionComparisons Simple.compared init) ∨
        (Blank (optionComparisons Simple.compared update) ∨
          (Blank condition.compared ∨ Blank loopBody.compared)) ↔
        Blank (Stmt.forLoop init condition update loopBody).compared := by
      simp only [Stmt.compared, blank_append]
      grind
    unfold visitStmt
    apply (visitOption_fails h hsub hi hs).bind hbad
    intro _ u₁ _ hu₁
    apply (stocked_emit hu₁ _).quiet_bind
    intro cond u₂ hu₂
    apply (stocked_emit hu₂ _).quiet_bind
    intro loop u₃ hu₃
    apply (stocked_emit hu₃ _).quiet_bind
    intro _ u₄ hu₄
    apply (stocked_emit hu₄ _).quiet_bind
    intro _ u₅ hu₅
    apply (visitOption_fails h hsub hu hu₅).bind Iff.rfl
    intro _ u₆ _ hu₆
    apply (stocked_emit hu₆ _).quiet_bind
    intro _ u₇ hu₇
    apply (visitCondition_fails h hsub hc hu₇).bind Iff.rfl
    intro exit u₈ _ hu₈
    apply (visitStmt_fails loopBody (h.loop exit) hsub hb hu₈).bind_quiet
    intro _ u₉ _ hu₉
    apply (stocked_emit hu₉ _).quiet_bind
    intro _ v hv
    exact stocked_emit hv _
  | .ifThen condition trueBranch, _, _, _, _, _, h, hsub, ⟨hc, ht⟩, hs => by
    unfold visitStmt
    apply (visitCondition_fails h hsub hc hs).bind blank_append.symm
    intro exit u _ hu
    apply (visitStmt_fails trueBranch h hsub ht hu).bind_quiet
    intro _ u₂ _ hu₂
    exact stocked_emit hu₂ _
  | .ifElse condition trueBranch falseBranch, _, _, _, _, _, h, hsub, ⟨hc, ht, hf⟩, hs => by
    have hbad : Blank condition.compared ∨ (Blank trueBranch.compared ∨ Blank falseBranch.compared) ↔
        Blank (Stmt.ifElse condition trueBranch falseBranch).compared := by
      simp only [Stmt.compared, blank_append, or_assoc]
    unfold visitStmt
    apply (visitCondition_fails h hsub hc hs).bind hbad
    intro falseLabel u _ hu
    apply (visitStmt_fails trueBranch h hsub ht hu).bind Iff.rfl
    intro _ u₂ _ hu₂
    apply (stocked_emit hu₂ _).quiet_bind
    intro exit u₃ hu₃
    apply (stocked_emit hu₃ _).quiet_bind
    intro _ u₄ hu₄
    apply (stocked_emit hu₄ _).quiet_bind
    intro _ u₅ hu₅
    apply (visitStmt_fails falseBranch h (mem_append_of_sub hsub) hf hu₅).bind_quiet
    intro _ u₆ _ hu₆
    rw [Stmt.defs, ← List.append_assoc]
    exact stocked_emit hu₆ _
  | .breakStmt, x, _, _, _, _, h, _, hr, hs => by
    rw [Stmt.defs, List.append_nil]
    have hexits := h.exits hr
    unfold visitStmt
    cases he : x.loopExits with
    | nil => exact absurd he hexits
    | cons exit exits => exact quiet_blank (stocked_emit hs _)
  | .print es, _, _, _, _, _, h, hsub, hr, hs => by
    rw [Stmt.defs, List.append_nil]
    exact visitPrint_fails h hsub es hr hs
  | .ret e, _, _, _, _, _, h, hsub, hr, hs => by
    rw [Stmt.defs, List.append_nil]
    exact visitReturn_fails h hsub hr hs

theorem visitStmts_fails : ∀ (stmts : Stmts Checked) {x : Context} {breaks : Nat}
    {defined stock : List Nat} {s : Output}, Inside x k breaks →
    (∀ loc ∈ defined, loc ∈ stock) → stmts.Ready k breaks defined → Stocked k stock s →
    (visitStmts x stmts).FailsIff (Blank stmts.compared)
      (fun _ u => Stocked k (stock ++ stmts.defs) u) s
  | .nil, _, _, _, _, _, _, _, _, hs => by
    rw [Stmts.defs, List.append_nil]
    exact quiet_blank (Cmd.failsIff_pure hs)
  | .cons stmt stmts, _, _, _, _, _, h, hsub, ⟨hr, hrs⟩, hs => by
    unfold visitStmts
    apply (visitStmt_fails stmt h hsub hr hs).bind blank_append.symm
    intro _ u _ hu
    rw [Stmts.defs, ← List.append_assoc]
    exact visitStmts_fails stmts h (mem_append_of_sub hsub) hrs hu

end

end

/-! ## Functions -/

section

variable {k : Known} {stock : List Nat} {s : Output} {chain : ClassId → List ClassId}

theorem memoOf_ends {vs : List Variable} (hs : Stocked k stock s)
    (hvs : ∀ v ∈ vs, v.loc ∈ stock) : (memoOf vs).FailsIff False (fun _ u => u = s) s := by
  induction vs with
  | nil => exact Cmd.failsIff_pure rfl
  | cons v vs ih =>
    rw [List.forall_mem_cons] at hvs
    obtain ⟨t, ht⟩ := Option.isSome_iff_exists.mp (hs.temps _ hvs.1)
    unfold memoOf
    apply (Cmd.failsIff_get (P := fun a t => a = _ ∧ t = _) ⟨rfl, rfl⟩).quiet_bind
    rintro _ _ ⟨rfl, rfl⟩
    apply (failsIff_deref ht).quiet_bind
    rintro _ _ ⟨rfl, rfl⟩
    apply (ih hvs.2).quiet_bind
    rintro memo _ rfl
    exact Cmd.failsIff_pure rfl

theorem visitMethodDef_fails {m : MethodDef Checked} (hm : m.Ready k)
    (hplaced : ∀ loc ∈ m.placed, loc ∈ stock) (hs : Stocked k stock s) :
    (visitMethodDef chain m).FailsIff (Blank m.body.compared) (fun _ u => Stocked k stock u) s := by
  have hthis : (if m.statik then pure none
      else do
        let v ← deref (m.associatedScope.find? fun v => v.name = "this")
        let s ← Cmd.get
        pure (s.temp v.loc) : Pass (Option Temp)).FailsIff False
      (fun t u => (m.statik = false → t.isSome = true) ∧ u = s) s := by
    split
    · next hstatik => exact Cmd.failsIff_pure ⟨fun h => by simp [h] at hstatik, rfl⟩
    · next hstatik =>
      obtain ⟨v, hv⟩ := Option.isSome_iff_exists.mp (hm.this (by simpa using hstatik))
      have hloc := hplaced _ (hm.formals v (List.mem_of_find?_eq_some hv))
      apply (failsIff_deref hv).quiet_bind
      rintro _ _ ⟨rfl, rfl⟩
      exact ⟨id, fun _ => hs.temps _ hloc, rfl⟩
  obtain ⟨label, hlabel⟩ := Option.isSome_iff_exists.mp (hs.labels _ hm.known)
  unfold visitMethodDef
  apply hthis.quiet_bind
  rintro currentThis _ ⟨hcur, rfl⟩
  apply (Cmd.failsIff_get (P := fun a t => a = _ ∧ t = _) ⟨rfl, rfl⟩).quiet_bind
  rintro _ _ ⟨rfl, rfl⟩
  apply (failsIff_deref hlabel).quiet_bind
  rintro _ _ ⟨rfl, rfl⟩
  unfold beginFunc
  apply (Cmd.failsIff_modify (P := fun _ u => Stocked k stock u) (hs.setTr _)).quiet_bind
  intro _ u hu
  apply (memoOf_ends hu fun v hv => hplaced _ (hm.formals v hv)).quiet_bind
  rintro paramMemo _ rfl
  apply (stocked_emit hu _).quiet_bind
  intro _ u₂ hu₂
  have hin : Inside ⟨chain, currentThis, []⟩ { k with statik := m.statik } 0 :=
    ⟨hcur, fun h => absurd h (Nat.lt_irrefl 0)⟩
  have hu₂' : Stocked { k with statik := m.statik } stock u₂ :=
    ⟨hu₂.temps, hu₂.labels, hu₂.tables, hu₂.routines⟩
  apply (visitStmts_fails m.body hin hplaced hm.body hu₂').bind_quiet
  intro _ u₃ _ hu₃
  have hback : Stocked k stock u₃ :=
    ⟨fun loc hloc => hu₃.temps loc (List.mem_append_left _ hloc), hu₃.labels, hu₃.tables,
      hu₃.routines⟩
  exact Cmd.failsIff_modify ⟨hback.temps, hback.labels, hback.tables, hback.routines⟩

theorem visitField_fails {field : Field Checked} (hf : field.Ready k)
    (hplaced : ∀ m, field = .method m → ∀ loc ∈ m.placed, loc ∈ stock) (hs : Stocked k stock s) :
    (visitField chain field).FailsIff (Blank field.compared) (fun _ u => Stocked k stock u) s := by
  cases field with
  | var d => exact (visitVarDef_fails hf hs).imp blank_nil.symm fun _ _ h => h.1
  | method m => exact visitMethodDef_fails hf (hplaced m rfl) hs

/-- The pass fails exactly at a comparison whose sides have no values. -/
theorem visitTopLevel_fails {cds : List (ClassDef Checked)} (hcds : ∀ cd ∈ cds, cd.Ready k)
    (hplaced : ∀ cd ∈ cds, ∀ m, .method m ∈ cd.fields → ∀ loc ∈ m.placed, loc ∈ stock)
    (hs : Stocked k stock s) :
    (visitTopLevel chain cds).FailsIff (Blank (cds.flatMap ClassDef.compared))
      (fun _ u => Stocked k stock u) s := by
  rw [blank_flatMap]
  refine Cmd.failsIff_each (P := fun cd => Blank (ClassDef.compared cd)) hs ?_
  intro cd hcd t ht
  rw [ClassDef.compared, blank_flatMap]
  refine Cmd.failsIff_each (P := fun f => Blank (Field.compared f)) ht ?_
  intro field hfield u hu
  exact visitField_fails (hcds cd hcd field hfield)
    (fun m hm => hplaced cd hcd m (hm ▸ hfield)) hu

end

end TransPass2

/-! ## The symbols of a program without an error -/

open BuildSym (BuiltRight)

def Symbol.function? : Symbol → Option Function
  | .var _ => none
  | .func f => some f

/-- The methods and the classes of a program. -/
def knownOf (r : BuildSym.Result) (n : Nat) : Known :=
  ⟨((List.range n).flatMap r.scopes).filterMap Symbol.function?, n, false⟩

section

variable {program : Program} {r : BuildSym.Result}

theorem BuildSym.BuiltRight.mem_methods (hb : BuiltRight program r) {c : ClassId} {f : Function}
    (hf : .func f ∈ r.scopes c) : f ∈ (knownOf r program.classes.length).methods := by
  have hlt : c < program.classes.length := by
    by_contra hle
    rw [hb.others c (Nat.not_lt.mp hle)] at hf
    cases hf
  exact List.mem_filterMap.mpr
    ⟨.func f, List.mem_flatMap.mpr ⟨c, List.mem_range.mpr hlt, hf⟩, rfl⟩

theorem class_of_method {f : Function}
    (hf : f ∈ (knownOf r program.classes.length).methods) :
    ∃ c < program.classes.length, .func f ∈ r.scopes c := by
  obtain ⟨x, hx, hxf⟩ := List.mem_filterMap.mp hf
  obtain ⟨c, hc, hxc⟩ := List.mem_flatMap.mp hx
  cases x with
  | var v => cases hxf
  | func g =>
    obtain rfl := Option.some_inj.mp hxf
    exact ⟨c, List.mem_range.mp hc, hxc⟩

theorem symbolsOk_of_built (hb : BuiltRight program r) :
    TypeCheck.SymbolsOk r (knownOf r program.classes.length) where
  vars c v hv := by
    obtain ⟨cd, cd', -, -, f, -, f', -, hbuilt, hdecl⟩ := hb.field_of_symbol hv
    refine ⟨(hb.var hv).1, ?_⟩
    cases f' with
    | method m => cases hdecl
    | var d' =>
      obtain rfl := Symbol.var.inj hdecl
      cases f with
      | method m => exact hbuilt.elim
      | var d => exact hbuilt.2
  funcs c f hf := by
    obtain ⟨cd, cd', -, -, x, -, x', -, hbuilt, hdecl⟩ := hb.field_of_symbol hf
    cases x' with
    | var d => cases hdecl
    | method m' =>
      obtain rfl := Symbol.func.inj hdecl
      cases x with
      | var d => exact hbuilt.elim
      | method m => exact ⟨hb.mem_methods hf, hbuilt.ok.func, hbuilt.args⟩
  classes name c hc := by
    rw [hb.globals] at hc
    exact BuildSym.lookupClass_lt hc

theorem fieldOk_of_fieldBuilt (hb : BuiltRight program r) {c : ClassId} {y : Field Parsed}
    {x : Field Built} (hbuilt : BuildSym.FieldBuilt r.globals c y x)
    (hmem : BuildSym.declares x ∈ r.scopes c) :
    TypeCheck.FieldOk (knownOf r program.classes.length) x := by
  cases y with
  | var d =>
    cases x with
    | method m => exact hbuilt.elim
    | var d' =>
      show d'.symbol.definedIn.isSome = true
      rw [hbuilt.1]
      rfl
  | method m =>
    cases x with
    | var d => exact hbuilt.elim
    | method m' => exact ⟨hbuilt.ok, hb.mem_methods hmem⟩

theorem fieldOk_of_built (hb : BuiltRight program r) :
    ∀ cd ∈ r.classes, ∀ f ∈ cd.fields,
      TypeCheck.FieldOk (knownOf r program.classes.length) f := by
  intro cd' hcd' f' hf'
  obtain ⟨c, hc, rfl⟩ := List.getElem_of_mem hcd'
  obtain ⟨hclass, hscope, -⟩ := hb.built c _ _ (List.getElem?_eq_getElem (hb.length ▸ hc))
    (List.getElem?_eq_getElem hc)
  have hmem : BuildSym.declares f' ∈ r.scopes c := by
    rw [hscope]
    exact List.mem_map_of_mem hf'
  obtain ⟨i, hi, rfl⟩ := List.getElem_of_mem hf'
  exact fieldOk_of_fieldBuilt hb (hclass.fields.get (hclass.fields.length_eq ▸ hi) hi) hmem

/-- The second pass finds what it reads. -/
theorem stocked_of_finished {cds : List (ClassDef Checked)}
    {s u : Output} (h : TransPass1.Finished r cds program.classes.length s u) :
    TransPass2.Stocked (knownOf r program.classes.length)
      (cds.flatMap fun cd => cd.fields.flatMap fun
        | .var _ => []
        | .method m => m.placed) u := by
  refine ⟨fun loc hloc => ?_, fun f hf => ?_, fun c hc => ?_, h.routines⟩
  · obtain ⟨cd, hcd, hloc⟩ := List.mem_flatMap.mp hloc
    obtain ⟨field, hfield, hloc⟩ := List.mem_flatMap.mp hloc
    cases field with
    | var d => cases hloc
    | method m => exact h.temps cd hcd m hfield loc hloc
  · obtain ⟨c, hc, hfc⟩ := class_of_method hf
    have hfuncty : u.functy = s.functy := by rw [h.tabled.same]
    rw [hfuncty]
    exact (h.phase.translated c hc f hfc).1
  · obtain ⟨vtbl, hvtbl, -⟩ := h.tabled.tables c hc
    rw [hvtbl]
    rfl

/-- The two translating passes fail exactly where the sides of a comparison have no values. -/
theorem translate_fails (hb : BuiltRight program r) {cds : List (ClassDef Checked)}
    (hcds : TypeCheck.visitTopLevel r [] = .ok cds [])
    (hready : ∀ cd ∈ cds, cd.Ready (knownOf r program.classes.length)) :
    (translate r cds).FailsIff (Blank (cds.flatMap ClassDef.compared)) (fun _ _ => True)
      Output.start := by
  obtain ⟨hlen, hclasses⟩ := TransPass1.classReady_of_checked hb hcds
  have hfirst : (TransPass1.visitTopLevel r cds).FailsIff False (fun _ u => ∃ s,
      TransPass1.Finished r cds program.classes.length s u) Output.start :=
    Cmd.Wp.mono (TransPass1.passes_visitTopLevel hb hlen hclasses)
      (fun _ _ h => ⟨id, h⟩) (fun _ _ h => h.elim) id
  unfold translate
  apply hfirst.quiet_bind
  rintro _ u ⟨s, hu⟩
  refine (TransPass2.visitTopLevel_fails hready ?_ (stocked_of_finished hu)).imp Iff.rfl
    fun _ _ _ => trivial
  intro cd hcd m hm loc hloc
  exact List.mem_flatMap.mpr ⟨cd, hcd, List.mem_flatMap.mpr ⟨.method m, hm, hloc⟩⟩

end

/-! ## The whole compiler -/

/-- A program comes to errors or to code, in which each value that is used has a temp, unless a
comparison trips the checker, or stands in an accepted program without values on its sides. -/
theorem compile_ends_iff (program : Program) :
    (∃ v, compile program = .ok v) ↔
      ∀ r, BuildSym.visitTopLevel program = .ok r → r.errors = [] →
        ¬ Trips r.chain (r.comparisons true) ∧
          ((∃ cds, TypeCheck.visitTopLevel r [] = .ok cds []) → ¬ Blank (r.comparisons false)) := by
  obtain ⟨r, hr, hbuilt⟩ := BuildSym.visitTopLevel_ok program
  have hone : ∀ {P : BuildSym.Result → Prop},
      (∀ r', BuildSym.visitTopLevel program = .ok r' → P r') ↔ P r := by
    intro P
    rw [hr]
    exact ⟨fun h => h r rfl, fun h r' hr' => Except.ok.inj hr' ▸ h⟩
  rw [hone]
  unfold compile
  simp only [hr]
  by_cases herrors : r.errors = []
  · rw [if_neg (not_not_intro herrors)]
    have hb := hbuilt herrors
    have hchecks := TypeCheck.visitTopLevel_checks (symbolsOk_of_built hb) (fieldOk_of_built hb) []
    unfold Cmd.Wp at hchecks
    cases hrun : TypeCheck.visitTopLevel r [] with
    | stop =>
      rw [hrun] at hchecks
      exact hchecks.elim
    | fail e t =>
      rw [hrun] at hchecks
      simp only [herrors, forall_const]
      exact ⟨fun ⟨v, hv⟩ => (by cases hv), fun h => absurd hchecks h.1⟩
    | ok cds errors =>
      rw [hrun] at hchecks
      obtain ⟨htrips, -, hready⟩ := hchecks
      simp only [herrors, forall_const, htrips, not_false_eq_true, true_and]
      by_cases hnone : errors = []
      · subst hnone
        obtain ⟨-, hready, hcompared⟩ := hready rfl
        rw [if_neg (by simp), ← hcompared]
        rcases (translate_fails hb hrun hready).ends with ⟨hblank, e, t, hrun'⟩ | ⟨hblank, _, t, hrun', -⟩
        · rw [hrun']
          exact ⟨fun ⟨v, hv⟩ => (by cases hv), fun h => absurd hblank (h ⟨cds, rfl⟩)⟩
        · rw [hrun']
          exact ⟨fun _ _ => hblank, fun _ => ⟨_, rfl⟩⟩
      · rw [if_pos hnone]
        refine ⟨fun _ ⟨cds', h⟩ => ?_, fun _ => ⟨_, rfl⟩⟩
        cases h
        exact absurd rfl hnone
  · rw [if_pos herrors]
    exact ⟨fun _ h => absurd h herrors, fun _ => ⟨_, rfl⟩⟩

/-- A class whose `main` compares itself with itself. -/
def selfCompare : Program where
  classes := [⟨"Main", none, [.method ⟨true, "main", .typeIdent .VOID, [], (), (),
    .cons (.ifThen (.binary 4 .EQ (.lvalue (.ident 2 "main")) (.lvalue (.ident 3 "main"))) .skip) .nil,
    1, ()⟩]⟩]
  ordered := by decide

theorem not_compile_ends : ¬ ∃ v, compile selfCompare = .ok v := by
  have hfault : (match compile selfCompare with
    | .error _ => true
    | .ok _ => false) = true := by decide +kernel
  rintro ⟨v, hv⟩
  rw [hv] at hfault
  cases hfault

end nehcpu.decaf
