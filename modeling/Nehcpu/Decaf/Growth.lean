-- What the visitors of `TransPass2` append for an expression: a segment of code, with new temps and
-- new labels.
import Nehcpu.Decaf.Segments
import Nehcpu.Decaf.TypeTest

namespace nehcpu.decaf.TransPass2

open cpu simulation command

/-! ## Translations -/

/-- A translation appends a segment, and `new` says of its result what the next temp is for. -/
def Emits {α : Type} (c : Trans α) (waits waits' : Bool) (new : α → Nat → Prop) : Prop :=
  ∀ k j code, ∃ k' j' ts, (c ⟨k, j, code⟩).2 = ⟨k', j', code ++ ts⟩ ∧ k ≤ k' ∧ j ≤ j' ∧
    Segment k j j' ts ∧ settle waits ts = some waits' ∧ new (c ⟨k, j, code⟩).1 k'

/-- The result is older than the next temp. -/
def Older (t : Temp) (k : Nat) : Prop := t.id < k

/-- What is said of a result that is none. -/
def Whatever {α : Type} (_ : α) (_ : Nat) : Prop := True

/-- Instructions that neither jump nor mark a label. -/
theorem segment_straight {k j j' : Nat} {ts : List Tac}
    (hts : ∀ t ∈ ts, t.target? = none ∧ t.marked? = none)
    (hwrites : ∀ t ∈ ts, ∀ x, t.defines = some x → k ≤ x.id) : Segment k j j' ts := by
  refine ⟨hwrites, fun l hl => ?_, fun t ht l hl => ?_⟩
  · cases (hts _ hl).2
  · rw [(hts t ht).1] at hl
    cases hl

section

variable (a b : Temp)

theorem genBinary_emits (opc : BinaryKind) : Emits (genBinary opc a b) false false Older := by
  intro k j code
  refine ⟨k + 1, j, [.binary opc ⟨k⟩ a b], rfl, Nat.le_succ k, Nat.le_refl j, ?_, rfl,
    Nat.lt_succ_self k⟩
  apply segment_straight <;> simp [Tac.target?, Tac.marked?, Tac.defines]

theorem genUnary_emits (opc : UnaryKind) : Emits (genUnary opc a) false false Older := by
  intro k j code
  refine ⟨k + 1, j, [.unary opc ⟨k⟩ a], rfl, Nat.le_succ k, Nat.le_refl j, ?_, rfl,
    Nat.lt_succ_self k⟩
  apply segment_straight <;> simp [Tac.target?, Tac.marked?, Tac.defines]

theorem genMul_emits : Emits (genMul a b) false false Older := by
  intro k j code
  refine ⟨k + 1, j, [.mult a b, .mflo ⟨k⟩], ?_, Nat.le_succ k, Nat.le_refl j, ?_, rfl,
    Nat.lt_succ_self k⟩
  · show Translater.mk _ _ (code ++ [_] ++ [_]) = _
    rw [List.append_assoc]
    rfl
  · apply segment_straight <;> simp [Tac.target?, Tac.marked?, Tac.defines]

theorem genLoad_emits (offset : Int) (waits : Bool) :
    Emits (genLoad a offset) waits waits Older := by
  intro k j code
  refine ⟨k + 1, j, [.load ⟨k⟩ a offset], rfl, Nat.le_succ k, Nat.le_refl j, ?_, ?_,
    Nat.lt_succ_self k⟩
  · apply segment_straight <;> simp [Tac.target?, Tac.marked?, Tac.defines]
  · cases waits <;> rfl

theorem genLoadImm4_emits (value : Int) : Emits (genLoadImm4 value) false false Older := by
  intro k j code
  refine ⟨k + 1, j, [.loadImm4 ⟨k⟩ value], rfl, Nat.le_succ k, Nat.le_refl j, ?_, rfl,
    Nat.lt_succ_self k⟩
  apply segment_straight <;> simp [Tac.target?, Tac.marked?, Tac.defines]

theorem genLoadStrConst_emits (value : String) :
    Emits (genLoadStrConst value) false false Older := by
  intro k j code
  refine ⟨k + 1, j, [.loadStrConst ⟨k⟩ value], rfl, Nat.le_succ k, Nat.le_refl j, ?_, rfl,
    Nat.lt_succ_self k⟩
  apply segment_straight <;> simp [Tac.target?, Tac.marked?, Tac.defines]

theorem genLiteral_emits (value : LiteralValue) : Emits (genLiteral value) false false Older := by
  cases value with
  | int v => exact genLoadImm4_emits v
  | bool v => exact genLoadImm4_emits _
  | string v => exact genLoadStrConst_emits v

theorem genParm_emits (waits : Bool) : Emits (genParm a) waits true Whatever := by
  intro k j code
  refine ⟨k, j, [.parm a], rfl, Nat.le_refl k, Nat.le_refl j, ?_, rfl, trivial⟩
  apply segment_straight <;> simp [Tac.target?, Tac.marked?, Tac.defines]

theorem genRoutineCall_emits (intrn : Routine) (waits : Bool) :
    Emits (genRoutineCall intrn) waits false Older := by
  intro k j code
  refine ⟨k + 1, j, [.directCall (some ⟨k⟩) intrn.label], rfl, Nat.le_succ k, Nat.le_refl j, ?_,
    rfl, Nat.lt_succ_self k⟩
  apply segment_straight <;> simp [Tac.target?, Tac.marked?, Tac.defines]

/-- The result of a call, where there is one. -/
def OlderResult (v : Option Temp) (k : Nat) : Prop := ∀ t, v = some t → t.id < k

theorem genDirectCall_emits (l : Label) (retType : Ty) (waits : Bool) :
    Emits (genDirectCall l retType) waits false OlderResult := by
  intro k j code
  unfold genDirectCall resultTemp
  split
  · refine ⟨k, j, [.directCall none l], rfl, Nat.le_refl k, Nat.le_refl j, ?_, rfl, nofun⟩
    apply segment_straight <;> simp [Tac.target?, Tac.marked?, Tac.defines]
  · refine ⟨k + 1, j, [.directCall (some ⟨k⟩) l], rfl, Nat.le_succ k, Nat.le_refl j, ?_, rfl, ?_⟩
    · apply segment_straight <;> simp [Tac.target?, Tac.marked?, Tac.defines]
    · intro t ht
      obtain rfl := Option.some_inj.mp ht
      exact Nat.lt_succ_self k

theorem genIndirectCall_emits (func : Temp) (retType : Ty) (waits : Bool) :
    Emits (genIndirectCall func retType) waits false OlderResult := by
  intro k j code
  unfold genIndirectCall resultTemp
  split
  · refine ⟨k, j, [.indirectCall none func], rfl, Nat.le_refl k, Nat.le_refl j, ?_, rfl, nofun⟩
    apply segment_straight <;> simp [Tac.target?, Tac.marked?, Tac.defines]
  · refine ⟨k + 1, j, [.indirectCall (some ⟨k⟩) func], rfl, Nat.le_succ k, Nat.le_refl j, ?_, rfl,
      ?_⟩
    · apply segment_straight <;> simp [Tac.target?, Tac.marked?, Tac.defines]
    · intro t ht
      obtain rfl := Option.some_inj.mp ht
      exact Nat.lt_succ_self k

theorem callRoutine_emits (intrn : Routine) : Emits (callRoutine intrn a b) false false Older := by
  intro k j code
  refine ⟨k + 1, j, [.parm a, .parm b, .directCall (some ⟨k⟩) intrn.label], ?_, Nat.le_succ k,
    Nat.le_refl j, ?_, rfl, Nat.lt_succ_self k⟩
  · show Translater.mk _ _ (code ++ [_] ++ [_] ++ [_]) = _
    rw [List.append_assoc, List.append_assoc]
    rfl
  · apply segment_straight <;> simp [Tac.target?, Tac.marked?, Tac.defines]

theorem genStringEqual_emits (tag : BinaryTag) :
    Emits (genStringEqual tag a b) false false Older := by
  by_cases htag : tag = .NE
  · intro k j code
    unfold genStringEqual
    simp only [if_pos htag]
    refine ⟨k + 2, j, [.parm a, .parm b, .directCall (some ⟨k⟩) Routine.STRING_EQUAL.label,
      .unary .lnot ⟨k + 1⟩ ⟨k⟩], ?_, Nat.le_add_right k 2, Nat.le_refl j, ?_, rfl,
      Nat.lt_succ_self (k + 1)⟩
    · show Translater.mk _ _ (code ++ [_] ++ [_] ++ [_] ++ [_]) = _
      rw [List.append_assoc, List.append_assoc, List.append_assoc]
      rfl
    · apply segment_straight <;> simp [Tac.target?, Tac.marked?, Tac.defines]
  · unfold genStringEqual
    simp only [if_neg htag]
    exact callRoutine_emits a b .STRING_EQUAL

end

section

attribute [local simp] genInstanceof genClassCast genPrintString genParm genLoadVTable genLoad
  genLoadImm4 genLoadStrConst genIntrinsicCall genIntrinsicCallI4 genMark genBnez genNewArray
  genCheckNewArraySize genCheckArrayIndex decaf.visitIndexed genElement genAdd genMul genLes genStore
  createTempI4 createLabel append bind StateT.bind pure stateT_pure modify modifyGet
  MonadStateOf.modifyGet StateT.modifyGet searchLoop printCode instanceofCode classCastCode
  castFailCode failCode clearCode allocCode indexCode elementCode WORD_SIZE

theorem genInstanceof_run (inst : Temp) (vtbl : String) (k j : Nat) (code : List Tac) :
    genInstanceof inst vtbl ⟨k, j, code⟩ =
      (⟨k⟩, ⟨k + 3, j + 2, code ++ instanceofCode inst vtbl k j⟩) := by
  simp

theorem genClassCast_run (val : Temp) (vtbl : String) (k j : Nat) (code : List Tac) :
    (genClassCast val vtbl ⟨k, j, code⟩).2 =
      ⟨k + 10, j + 2, code ++ classCastCode val vtbl k j⟩ := by
  simp

theorem visitIndexed_run (array index : Temp) (k j : Nat) (code : List Tac) :
    decaf.visitIndexed array index ⟨k, j, code⟩ = (⟨k + 8⟩, ⟨k + 9, j + 2,
      code ++ indexCode array index k j
        (elementCode array index (k + 5) ++ [.load ⟨k + 8⟩ ⟨k + 7⟩ 0])⟩) := by
  simp

theorem genNewArray_run (length : Temp) (k j : Nat) (code : List Tac) :
    genNewArray length ⟨k, j, code⟩ = (⟨k + 6⟩, ⟨k + 8, j + 3,
      code ++ ([.loadImm4 ⟨k⟩ 0, .binary .les ⟨k + 1⟩ length ⟨k⟩] ++ .beqz ⟨k + 1⟩ ⟨j⟩ ::
        (failCode ⟨k + 2⟩ NEGATIVE_ARR_SIZE ⟨j⟩ ++ (allocCode length k ++
        clearCode ⟨k + 3⟩ ⟨k + 5⟩ ⟨k + 6⟩ ⟨k + 7⟩ ⟨j + 1⟩ ⟨j + 2⟩)))⟩) := by
  simp

end

section

attribute [local simp] searchLoop printCode instanceofCode classCastCode castFailCode failCode
  clearCode allocCode indexCode elementCode Tac.defines Tac.target? Tac.isMark Tac.isJump Tac.marked?
  settle

variable (a b : Temp)

theorem genInstanceof_emits (vtbl : String) :
    Emits (genInstanceof a vtbl) false false Older := by
  intro k j code
  rw [genInstanceof_run]
  refine ⟨k + 3, j + 2, _, rfl, Nat.le_add_right k 3, Nat.le_add_right j 2, ⟨?_, ?_, ?_⟩, ?_, ?_⟩
  · simp
  · simp
  · simp
  · simp
  · exact Nat.lt_add_of_pos_right (by omega)

theorem genClassCast_emits (vtbl : String) :
    Emits (genClassCast a vtbl) false false Whatever := by
  intro k j code
  rw [genClassCast_run]
  refine ⟨k + 10, j + 2, _, rfl, Nat.le_add_right k 10, Nat.le_add_right j 2, ⟨?_, ?_, ?_⟩, ?_,
    trivial⟩
  · simp
  · simp
  · simp
  · simp

theorem visitIndexed_emits : Emits (decaf.visitIndexed a b) false false Older := by
  intro k j code
  rw [visitIndexed_run]
  refine ⟨k + 9, j + 2, _, rfl, Nat.le_add_right k 9, Nat.le_add_right j 2, ⟨?_, ?_, ?_⟩, ?_,
    Nat.lt_succ_self (k + 8)⟩
  · simp
    omega
  · simp
  · simp
  · simp

theorem genNewArray_emits : Emits (genNewArray a) false false Older := by
  intro k j code
  rw [genNewArray_run]
  refine ⟨k + 8, j + 3, _, rfl, Nat.le_add_right k 8, Nat.le_add_right j 3, ⟨?_, ?_, ?_⟩, ?_, ?_⟩
  · simp
  · simp
  · simp
  · simp
  · exact Nat.add_lt_add_left (by omega) k

end

/-! ## The output -/

/-- Between two outputs of the pass a segment has been appended, and nothing else is changed. -/
structure Grown (waits waits' : Bool) (s u : Output) : Prop where
  same : u = { s with tr := u.tr }
  temps : s.tr.temps ≤ u.tr.temps
  labels : s.tr.labels ≤ u.tr.labels
  code : ∃ code, u.tr.code = s.tr.code ++ code ∧
    Segment s.tr.temps s.tr.labels u.tr.labels code ∧ settle waits code = some waits'

/-- The temps that stand for variables and for `this` have been made. -/
structure Below (k : Context) (s : Output) : Prop where
  symbols : ∀ loc t, s.temp loc = some t → t.id < s.tr.temps
  this : ∀ t, k.currentThis = some t → t.id < s.tr.temps

section

variable {k : Context} {s u v : Output} {waits waits' waits'' : Bool}

theorem grown_refl (waits : Bool) : Grown waits waits s s :=
  ⟨rfl, Nat.le_refl _, Nat.le_refl _, [], (List.append_nil _).symm, Segment.nil .., rfl⟩

theorem Grown.trans (h : Grown waits waits' s u) (h' : Grown waits' waits'' u v) :
    Grown waits waits'' s v := by
  obtain ⟨code, hcode, hseg, hsettle⟩ := h.code
  obtain ⟨code', hcode', hseg', hsettle'⟩ := h'.code
  refine ⟨by rw [h'.same, h.same], Nat.le_trans h.temps h'.temps, Nat.le_trans h.labels h'.labels,
    code ++ code', ?_, hseg.append hseg' h.temps h.labels h'.labels, settle_append hsettle hsettle'⟩
  rw [hcode', hcode, List.append_assoc]

theorem Below.grown (h : Below k s) (hu : Grown waits waits' s u) : Below k u := by
  refine ⟨fun loc t ht => ?_, fun t ht => Nat.lt_of_lt_of_le (h.this t ht) hu.temps⟩
  rw [hu.same] at ht
  exact Nat.lt_of_lt_of_le (h.symbols loc t ht) hu.temps

/-- Where `c` returns, `Q` holds. -/
def Gives {α : Type} (c : Pass α) (s : Output) (Q : α → Output → Prop) : Prop :=
  Cmd.Wp c Q (fun _ _ => True) True s

theorem Gives.bind {α β : Type} {c : Pass α} {f : α → Pass β} {Q : α → Output → Prop}
    {P : β → Output → Prop} (hc : Gives c s Q) (hf : ∀ a u, Q a u → Gives (f a) u P) :
    Gives (c >>= f) s P := by
  unfold Gives
  rw [Cmd.wp_bind]
  exact Cmd.Wp.mono hc hf (fun _ _ => id) id

theorem Gives.imp {α : Type} {c : Pass α} {Q P : α → Output → Prop} (h : Gives c s Q)
    (hq : ∀ a u, Q a u → P a u) : Gives c s P :=
  Cmd.Wp.mono h hq (fun _ _ => id) id

theorem gives_operand (v : Option Temp) (s : Output) :
    Gives (operand v) s fun t u => u = s ∧ v = some t := by
  cases v with
  | none => trivial
  | some t => exact ⟨rfl, rfl⟩

theorem gives_deref {α : Type} (x : Option α) (s : Output) :
    Gives (deref x) s fun a u => u = s ∧ x = some a := by
  cases x with
  | none => trivial
  | some a => exact ⟨rfl, rfl⟩

theorem gives_orThrow {α : Type} (x : Except Fault α) (s : Output) :
    Gives (orThrow x) s fun _ u => u = s := by
  cases x with
  | error e => trivial
  | ok a => rfl

theorem gives_get (s : Output) : Gives Cmd.get s fun a u => u = s ∧ a = s := ⟨rfl, rfl⟩

theorem gives_emit {α : Type} {c : Trans α} {new : α → Nat → Prop}
    (h : Emits c waits waits' new) (s : Output) :
    Gives (emit c) s fun a u => Grown waits waits' s u ∧ new a u.tr.temps := by
  obtain ⟨k', j', ts, hrun, htemps, hlabels, hseg, hsettle, hnew⟩ := h s.tr.temps s.tr.labels s.tr.code
  have htr : (c s.tr).2 = ⟨k', j', s.tr.code ++ ts⟩ := hrun
  show Grown waits waits' s { s with tr := (c s.tr).2 } ∧ new (c s.tr).1 (c s.tr).2.temps
  rw [htr]
  exact ⟨⟨rfl, htemps, hlabels, ts, rfl, hseg, hsettle⟩, hnew⟩

/-- What the visitor of an expression does to the output: the temp of the value has been made. -/
def Added (k : Context) (s : Output) (v : Option Temp) (u : Output) : Prop :=
  Grown false false s u ∧ (Below k s → ∀ t, v = some t → t.id < u.tr.temps)

theorem gives_onBoth {gen : Temp → Temp → Trans Temp}
    (hgen : ∀ a b, Emits (gen a b) false false Older) (l r : Option Temp) (s : Output) :
    Gives (onBoth gen l r) s (Added k s) := by
  unfold onBoth
  apply (gives_operand l s).bind
  rintro a _ ⟨rfl, -⟩
  apply (gives_operand r _).bind
  rintro b _ ⟨rfl, -⟩
  apply (gives_emit (hgen a b) _).bind
  rintro t u ⟨hu, ht⟩
  refine ⟨hu, fun _ t' ht' => ?_⟩
  obtain rfl := Option.some_inj.mp ht'
  exact ht

theorem gives_onOne {gen : Temp → Trans Temp} (hgen : ∀ a, Emits (gen a) false false Older)
    (v : Option Temp) (s : Output) : Gives (onOne gen v) s (Added k s) := by
  unfold onOne
  apply (gives_operand v s).bind
  rintro a _ ⟨rfl, -⟩
  apply (gives_emit (hgen a) _).bind
  rintro t u ⟨hu, ht⟩
  refine ⟨hu, fun _ t' ht' => ?_⟩
  obtain rfl := Option.some_inj.mp ht'
  exact ht

theorem gives_value {c : Trans Temp} (hc : Emits c false false Older) (s : Output) :
    Gives (do
      let t ← emit c
      pure (some t)) s (Added k s) := by
  apply (gives_emit hc s).bind
  rintro t u ⟨hu, ht⟩
  refine ⟨hu, fun _ t' ht' => ?_⟩
  obtain rfl := Option.some_inj.mp ht'
  exact ht

theorem gives_genBinaryTag (tag : BinaryTag) (leftType rightType : ExprType)
    (l r : Option Temp) (s : Output) :
    Gives (genBinaryTag tag leftType rightType l r) s (Added k s) := by
  have hbinary : ∀ opc, Gives (onBoth (genBinary opc) l r) s (Added k s) := fun opc =>
    gives_onBoth (genBinary_emits · · opc) l r s
  have hequ : ∀ tag, Gives (genEquNeq tag leftType rightType l r) s (Added k s) := by
    intro tag
    unfold genEquNeq
    split
    · exact gives_onBoth (genStringEqual_emits · · tag) l r s
    · split
      · exact hbinary .equ
      · exact hbinary .neq
  cases tag with
  | PLUS => exact hbinary .add
  | MINUS => exact hbinary .sub
  | MUL => exact gives_onBoth genMul_emits l r s
  | DIV => exact gives_onBoth (callRoutine_emits · · .LIB_DIV) l r s
  | MOD => exact gives_onBoth (callRoutine_emits · · .LIB_REM) l r s
  | AND => exact hbinary .land
  | OR => exact hbinary .lor
  | LT => exact hbinary .les
  | LE => exact hbinary .leq
  | GT => exact hbinary .gtr
  | GE => exact hbinary .geq
  | EQ => exact hequ .EQ
  | NE => exact hequ .NE

/-- The arguments wait for the call. -/
theorem gives_genParms (vals : List (Option Temp)) (waits : Bool) (s : Output) :
    Gives (genParms vals) s fun _ u => ∃ waits', Grown waits waits' s u := by
  induction vals generalizing waits s with
  | nil => exact ⟨waits, grown_refl waits⟩
  | cons v vals ih =>
    unfold genParms
    apply (gives_operand v s).bind
    rintro t _ ⟨rfl, -⟩
    apply (gives_emit (genParm_emits t waits) _).bind
    rintro _ u ⟨hu, -⟩
    apply (ih true u).imp
    rintro _ w ⟨waits', hw⟩
    exact ⟨waits', hu.trans hw⟩

theorem gives_symbolTemp (v : Option Variable) (s : Output) :
    Gives (symbolTemp v) s (Added k s) := by
  unfold symbolTemp
  apply (gives_deref v s).bind
  rintro w _ ⟨rfl, -⟩
  apply (gives_get _).bind
  rintro _ _ ⟨rfl, rfl⟩
  exact ⟨grown_refl false, fun hb t ht => hb.symbols w.loc t ht⟩

end

/-! ## The visitors -/

section

variable {k : Context}

theorem Added.after {s u v : Output} {x y : Option Temp} (h : Added k s x u) (h' : Added k u y v) :
    Added k s y v :=
  ⟨h.1.trans h'.1, fun hb => h'.2 (hb.grown h.1)⟩

/-- A value that stands from before. -/
theorem Added.old {s u v : Output} {x : Option Temp} (h : Added k s x u)
    (h' : Grown false false u v) : Added k s x v :=
  ⟨h.1.trans h', fun hb t ht => Nat.lt_of_lt_of_le (h.2 hb t ht) h'.temps⟩

mutual

theorem visitLValue_grown (k : Context) (l : LValue Note) (s : Output) :
    Gives (visitLValue k l) s fun place u => Added k s place.val u := by
  cases l with
  | ident node name =>
    rw [visitLValue]
    split
    · trivial
    · trivial
    · exact (gives_symbolTemp node.varSymbol s).bind fun v u hu => hu
  | select node owner name =>
    rw [visitLValue]
    split
    · trivial
    · apply (visitExpr_grown k owner s).bind
      intro base u hu
      apply (gives_deref node.varSymbol u).bind
      rintro v _ ⟨rfl, -⟩
      apply (gives_get _).bind
      rintro _ _ ⟨rfl, rfl⟩
      apply (gives_onOne (k := k) (genLoad_emits · _ false) base _).bind
      intro val w hw
      exact hu.after hw
    · exact (gives_symbolTemp node.varSymbol s).bind fun v u hu => hu
  | indexed node array index =>
    rw [visitLValue]
    apply (visitExpr_grown k array s).bind
    intro array' u hu
    apply (visitExpr_grown k index u).bind
    intro index' v hv
    apply (gives_onBoth (k := k) visitIndexed_emits array' index' v).bind
    intro val w hw
    exact (hu.after hv).after hw

theorem visitCall_grown (k : Context) (c : Call Note) (s : Output) :
    Gives (visitCall k c) s (Added k s) := by
  cases c with
  | call node method actuals =>
    rw [visitCall]
    split
    · trivial
    · apply (visitExprs_grown k actuals s).bind
      intro vals u hu
      apply (gives_genParms vals false u).bind
      rintro _ v ⟨waits, hv⟩
      apply (gives_deref node.funcSymbol v).bind
      rintro f _ ⟨rfl, -⟩
      apply (gives_get _).bind
      rintro _ _ ⟨rfl, rfl⟩
      apply (gives_deref _ _).bind
      rintro label _ ⟨rfl, -⟩
      apply (gives_emit (genDirectCall_emits label f.type.returnType waits) _).imp
      rintro val w ⟨hw, hold⟩
      exact ⟨hu.trans (hv.trans hw), fun _ => hold⟩
  | callOn node receiver method actuals =>
    rw [visitCall]
    split
    · apply (visitExpr_grown k receiver s).bind
      intro base u hu
      apply (gives_onOne (k := k) (genLoad_emits · _ false) base u).imp
      intro val v hv
      exact hu.after hv
    · apply (visitExpr_grown k receiver s).bind
      intro base u hu
      apply (visitExprs_grown k actuals u).bind
      intro vals v hv
      apply (gives_genParms (base :: vals) false v).bind
      rintro _ w ⟨waits, hw⟩
      apply (gives_operand base w).bind
      rintro base' _ ⟨rfl, -⟩
      apply (gives_emit (genLoad_emits base' 0 waits) _).bind
      rintro vt x ⟨hx, -⟩
      apply (gives_deref node.funcSymbol x).bind
      rintro f _ ⟨rfl, -⟩
      apply (gives_get _).bind
      rintro _ _ ⟨rfl, rfl⟩
      apply (gives_emit (genLoad_emits vt _ waits) _).bind
      rintro func y ⟨hy, -⟩
      apply (gives_emit (genIndirectCall_emits func f.type.returnType waits) y).imp
      rintro val z ⟨hz, hold⟩
      exact ⟨(hu.1.trans hv).trans (hw.trans (hx.trans (hy.trans hz))), fun _ => hold⟩

/-- The code of an expression is a segment. -/
theorem visitExpr_grown (k : Context) (e : Expr Note) (s : Output) :
    Gives (visitExpr k e) s (Added k s) := by
  cases e with
  | lvalue left =>
    rw [visitExpr]
    exact (visitLValue_grown k left s).bind fun place u hu => hu
  | call c =>
    rw [visitExpr]
    exact visitCall_grown k c s
  | literal node value =>
    rw [visitExpr]
    exact gives_value (genLiteral_emits value) s
  | null node =>
    rw [visitExpr]
    exact gives_value (genLoadImm4_emits 0) s
  | readInt node =>
    rw [visitExpr]
    exact gives_value (genRoutineCall_emits .READ_INT false) s
  | readLine node =>
    rw [visitExpr]
    exact gives_value (genRoutineCall_emits .READ_LINE false) s
  | this node =>
    rw [visitExpr]
    exact ⟨grown_refl false, fun hb => hb.this⟩
  | unary node tag expr =>
    rw [visitExpr]
    apply (visitExpr_grown k expr s).bind
    intro val u hu
    cases tag with
    | NEG => exact (gives_onOne (genUnary_emits · .neg) val u).imp fun v w hw => hu.after hw
    | NOT => exact (gives_onOne (genUnary_emits · .lnot) val u).imp fun v w hw => hu.after hw
  | binary node tag left right =>
    rw [visitExpr]
    apply (visitExpr_grown k left s).bind
    intro l u hu
    apply (visitExpr_grown k right u).bind
    intro r v hv
    apply (gives_genBinaryTag tag left.type right.type l r v).imp
    intro val w hw
    exact (hu.after hv).after hw
  | newClass node name =>
    rw [visitExpr]
    apply (gives_deref node.classSymbol s).bind
    rintro c _ ⟨rfl, -⟩
    apply (gives_get _).bind
    rintro _ _ ⟨rfl, rfl⟩
    split
    · trivial
    · next label _ =>
      exact (gives_emit (genDirectCall_emits label .INT false) _).imp
        fun val u hu => ⟨hu.1, fun _ => hu.2⟩
  | newArray node elementType length =>
    rw [visitExpr]
    apply (visitExpr_grown k length s).bind
    intro val u hu
    exact (gives_onOne genNewArray_emits val u).imp fun v w hw => hu.after hw
  | typeTest node inst name =>
    rw [visitExpr]
    apply (visitExpr_grown k inst s).bind
    intro val u hu
    apply (gives_deref node.classSymbol u).bind
    rintro c _ ⟨rfl, -⟩
    apply (gives_get _).bind
    rintro _ _ ⟨rfl, rfl⟩
    split
    · trivial
    · next vtbl _ =>
      exact (gives_onOne (genInstanceof_emits · vtbl.name) val _).imp fun v w hw => hu.after hw
  | typeCast node name expr =>
    rw [visitExpr]
    apply (visitExpr_grown k expr s).bind
    intro val u hu
    apply (gives_deref node.classSymbol u).bind
    rintro c _ ⟨rfl, -⟩
    apply (gives_orThrow _ _).bind
    rintro compatible _ rfl
    unfold Gives
    rw [Cmd.wp_ite]
    split
    · exact hu
    · apply (gives_get _).bind
      rintro _ _ ⟨rfl, rfl⟩
      split
      · trivial
      · next vtbl _ =>
        apply (gives_operand val _).bind
        rintro v _ ⟨rfl, rfl⟩
        apply (gives_emit (genClassCast_emits v vtbl.name) _).bind
        rintro _ w ⟨hw, -⟩
        exact hu.old hw

theorem visitExprs_grown (k : Context) (es : Exprs Note) (s : Output) :
    Gives (visitExprs k es) s fun _ u => Grown false false s u := by
  cases es with
  | nil =>
    rw [visitExprs]
    exact grown_refl false
  | cons e es =>
    rw [visitExprs]
    apply (visitExpr_grown k e s).bind
    intro val u hu
    apply (visitExprs_grown k es u).bind
    intro vals v hv
    exact hu.1.trans hv

end

end

end nehcpu.decaf.TransPass2
