-- Boolean expressions: the words that their code leaves, and when these say what is true.
import Nehcpu.Decaf.Growth

namespace nehcpu.decaf

open cpu simulation command

/-! ## Formulas -/

/-- A boolean expression over values that are known. -/
inductive Formula
  | value (b : Bool)
  | not (f : Formula)
  | and (f g : Formula)
  | or (f g : Formula)
  | equal (f g : Formula)
  | unequal (f g : Formula)

namespace Formula

def truth : Formula → Bool
  | .value b => b
  | .not f => !f.truth
  | .and f g => f.truth && g.truth
  | .or f g => f.truth || g.truth
  | .equal f g => f.truth == g.truth
  | .unequal f g => f.truth != g.truth

/-- The instructions of the backend on the words of the values. -/
def word : Formula → Word
  | .value b => ofBool b
  | .not f => UnaryKind.lnot.eval f.word
  | .and f g => BinaryKind.land.eval f.word g.word
  | .or f g => BinaryKind.lor.eval f.word g.word
  | .equal f g => BinaryKind.equ.eval f.word g.word
  | .unequal f g => BinaryKind.neq.eval f.word g.word

/-- `not` turns all the bits of a word over. -/
def inverted : Formula → Bool
  | .value _ | .equal _ _ | .unequal _ _ => false
  | .not f => !f.inverted
  | .and f g => f.inverted && g.inverted
  | .or f g => f.inverted || g.inverted

/-- The truth, if two sides of which only one is inverted always count as different. -/
def reading : Formula → Bool
  | .value b => b
  | .not f => !f.reading
  | .and f g => f.reading && g.reading
  | .or f g => f.reading || g.reading
  | .equal f g => f.inverted == g.inverted && f.reading == g.reading
  | .unequal f g => f.inverted != g.inverted || f.reading != g.reading

/-- No two sides are compared of which only one is inverted. -/
def alike : Formula → Bool
  | .value _ => true
  | .not f => f.alike
  | .and f g | .or f g => f.alike && g.alike
  | .equal f g | .unequal f g => f.alike && g.alike && f.inverted == g.inverted

/-- A bit with the bits above it. -/
def rep (inverted reading : Bool) : Word :=
  (if inverted then 0xFFFFFFFE#32 else 0#32) ||| ofBool reading

theorem rep_inj : ∀ a b c d, rep a b = rep c d ↔ a = c ∧ b = d := by decide

theorem rep_not : ∀ a b, UnaryKind.lnot.eval (rep a b) = rep (!a) (!b) := by decide

theorem rep_and : ∀ a b c d,
    BinaryKind.land.eval (rep a b) (rep c d) = rep (a && c) (b && d) := by decide

theorem rep_or : ∀ a b c d,
    BinaryKind.lor.eval (rep a b) (rep c d) = rep (a || c) (b || d) := by decide

theorem rep_equ : ∀ a b c d,
    BinaryKind.equ.eval (rep a b) (rep c d) = rep false (a == c && b == d) := by decide

theorem rep_neq : ∀ a b c d,
    BinaryKind.neq.eval (rep a b) (rep c d) = rep false (a != c || b != d) := by decide

theorem rep_proper : ∀ b, rep false b = ofBool b := by decide

/-- The word of a formula is its reading, with the upper bits set where it is inverted. -/
theorem word_eq (f : Formula) : f.word = rep f.inverted f.reading := by
  induction f with
  | value b => exact (rep_proper b).symm
  | not f ih => rw [word, ih, rep_not, inverted, reading]
  | and f g ihf ihg => rw [word, ihf, ihg, rep_and, inverted, reading]
  | or f g ihf ihg => rw [word, ihf, ihg, rep_or, inverted, reading]
  | equal f g ihf ihg => rw [word, ihf, ihg, rep_equ, inverted, reading]
  | unequal f g ihf ihg => rw [word, ihf, ihg, rep_neq, inverted, reading]

theorem word_right_iff (f : Formula) :
    f.word = ofBool f.truth ↔ f.inverted = false ∧ f.reading = f.truth := by
  rw [word_eq, ← rep_proper, rep_inj]

/-- Where only sides that are alike are compared, the reading is the truth. -/
theorem reading_of_alike {f : Formula} (h : f.alike = true) : f.reading = f.truth := by
  induction f with
  | value b => rfl
  | not f ih => rw [reading, truth, ih h]
  | and f g ihf ihg =>
    simp only [alike, Bool.and_eq_true] at h
    rw [reading, truth, ihf h.1, ihg h.2]
  | or f g ihf ihg =>
    simp only [alike, Bool.and_eq_true] at h
    rw [reading, truth, ihf h.1, ihg h.2]
  | equal f g ihf ihg =>
    simp only [alike, Bool.and_eq_true] at h
    rw [reading, truth, ihf h.1.1, ihg h.1.2, h.2, Bool.true_and]
  | unequal f g ihf ihg =>
    simp only [alike, Bool.and_eq_true, beq_iff_eq] at h
    rw [reading, truth, ihf h.1.1, ihg h.1.2, h.2, bne_self_eq_false, Bool.false_or]

end Formula

namespace TransPass2

/-! ## What the expressions are worth -/

/-- What the code runs with: the linker, the functions that it calls, the classes, and what the library
does with strings. `_StringEqual` returns 1 for two strings that are the same, and 0 otherwise. -/
structure World where
  lay : Layout
  callees : Callees
  hierarchy : Hierarchy
  labels : Option Label → Word
  sameString : (Word → Word) → Word → Word → Bool
  stringEqual : ∀ m a b, m.parms = [a, b] →
    ∃ m', callees.call (.inl Routine.STRING_EQUAL.label) m = some (ofBool (sameString m.mem a b), m')

/-- The visitor leaves the value in a temp, and its code runs to the end. -/
structure Computes (w : World) (k : Context) (e : Expr Note) (s : Output) (m : Machine) (t : Temp)
    (s' : Output) (m' : Machine) : Prop where
  visited : visitExpr k e s = .ok (some t) s'
  runs : w.callees.Completes w.lay (s'.tr.code.drop s.tr.code.length) m m'

/-- A comparison of two numbers, or of two references. -/
def holds : BinaryTag → Word → Word → Option Bool
  | .LT, a, b => some (decide (a.toInt < b.toInt))
  | .LE, a, b => some (decide (a.toInt ≤ b.toInt))
  | .GT, a, b => some (decide (b.toInt < a.toInt))
  | .GE, a, b => some (decide (b.toInt ≤ a.toInt))
  | .EQ, a, b => some (decide (a = b))
  | .NE, a, b => some (decide (a ≠ b))
  | _, _, _ => none

/-- The operations on two booleans. -/
def connective : BinaryTag → Option (Formula → Formula → Formula)
  | .AND => some .and
  | .OR => some .or
  | .EQ => some .equal
  | .NE => some .unequal
  | _ => none

/-- A type of numbers or of references, which are compared by their words. -/
def comparedByWord (t : ExprType) : Prop := t ≠ .ty .STRING ∧ t ≠ .ty .BOOL

/-- What a boolean expression comes to, when its code starts with these outputs and this machine: the
formula of its operations over the values of its operands. An operand that is no boolean is worth what
its own code leaves, and a call what the callee has returned, which is the word of an expression there.
-/
inductive Evaluates (w : World) (k : Context) : Expr Note → Output → Machine → Formula → Prop
  | literal {s : Output} {m : Machine} (node : Note) (b : Bool) :
    Evaluates w k (.literal node (.bool b)) s m (.value b)
  | compare {s s1 s2 : Output} {m m1 m2 : Machine} {l r : Expr Note} {tl tr : Temp} {b : Bool}
      (node : Note) (tag : BinaryTag) (left : Computes w k l s m tl s1 m1)
      (right : Computes w k r s1 m1 tr s2 m2)
      (types : tag = .EQ ∨ tag = .NE → comparedByWord l.type ∧ comparedByWord r.type)
      (compared : holds tag (m1.temps tl) (m2.temps tr) = some b) :
    Evaluates w k (.binary node tag l r) s m (.value b)
  | stringEqual {s s1 s2 : Output} {m m1 m2 : Machine} {l r : Expr Note} {tl tr : Temp}
      (node : Note) (left : Computes w k l s m tl s1 m1) (right : Computes w k r s1 m1 tr s2 m2)
      (types : l.type = .ty .STRING ∨ r.type = .ty .STRING) :
    Evaluates w k (.binary node .EQ l r) s m
      (.value (w.sameString m2.mem (m1.temps tl) (m2.temps tr)))
  | stringUnequal {s s1 s2 : Output} {m m1 m2 : Machine} {l r : Expr Note} {tl tr : Temp}
      (node : Note) (left : Computes w k l s m tl s1 m1) (right : Computes w k r s1 m1 tr s2 m2)
      (types : l.type = .ty .STRING ∨ r.type = .ty .STRING) :
    Evaluates w k (.binary node .NE l r) s m
      (.not (.value (w.sameString m2.mem (m1.temps tl) (m2.temps tr))))
  | connect {s s1 : Output} {m m1 : Machine} {l r : Expr Note} {tl : Temp} {f g : Formula}
      {op : Formula → Formula → Formula} (node : Note) (tag : BinaryTag)
      (types : l.type = .ty .BOOL ∧ r.type = .ty .BOOL) (connects : connective tag = some op)
      (left : Evaluates w k l s m f) (first : Computes w k l s m tl s1 m1)
      (right : Evaluates w k r s1 m1 g) : Evaluates w k (.binary node tag l r) s m (op f g)
  | not {s : Output} {m : Machine} {e : Expr Note} {f : Formula} (node : Note)
      (operand : Evaluates w k e s m f) : Evaluates w k (.unary node .NOT e) s m (.not f)
  | typeTest {s s1 : Output} {m m1 : Machine} {e : Expr Note} {t : Temp} {a c : ClassId}
      {vta vtc : VTable} {b : Bool} (node : Note) (name : String)
      (inst : Computes w k e s m t s1 m1) (symbol : node.classSymbol = some a)
      (target : s1.vtable a = some vta) (own : s1.vtable c = some vtc)
      (object : m1.mem (m1.temps t) = w.lay.vtbl vtc.name)
      (linked : TablesLinked w.hierarchy s1 w.lay) (loaded : Loaded w.lay w.labels s1 m1.mem)
      (subclass : b = true ↔ w.hierarchy.Subclass c a) :
    Evaluates w k (.typeTest node e name) s m (.value b)
  | call {s s' : Output} {m m' : Machine} {c : Call Note} {t : Temp} {f : Formula}
      (call : Computes w k (.call c) s m t s' m') (answer : m'.temps t = f.word) :
    Evaluates w k (.call c) s m f

/-! ## The code -/

/-- A segment has been appended, and it runs from one machine to the other. -/
structure Ran (w : World) (s : Output) (m : Machine) (s' : Output) (m' : Machine) : Prop where
  grown : Grown false false s s'
  completes : w.callees.Completes w.lay (s'.tr.code.drop s.tr.code.length) m m'

section

variable {w : World} {k : Context} {e : Expr Note} {s s1 s' s'' : Output} {m m1 m' m'' : Machine}
  {t t' : Temp}

theorem Grown.drop (h : Grown false false s s') : ∃ code, s'.tr.code = s.tr.code ++ code ∧
    s'.tr.code.drop s.tr.code.length = code ∧
    Segment s.tr.temps s.tr.labels s'.tr.labels code ∧ settle false code = some false := by
  obtain ⟨code, hcode, hseg, hsettle⟩ := h.code
  refine ⟨code, hcode, ?_, hseg, hsettle⟩
  rw [hcode, List.drop_left]

theorem Ran.trans (h : Ran w s m s' m') (h' : Ran w s' m' s'' m'') : Ran w s m s'' m'' := by
  refine ⟨h.grown.trans h'.grown, ?_⟩
  obtain ⟨code, hcode, hdrop, hseg, hsettle⟩ := h.grown.drop
  obtain ⟨code', hcode', hdrop', hseg', hsettle'⟩ := h'.grown.drop
  have hrun := h.completes
  have hrun' := h'.completes
  rw [hdrop] at hrun
  rw [hdrop'] at hrun'
  rw [hcode', hcode, List.append_assoc, List.drop_left]
  exact hseg.completes_append hsettle hseg' hsettle' hrun hrun'

/-- The older temps are left alone, and nothing waits for a call. -/
theorem Ran.kept (h : Ran w s m s' m') (hm : m.parms = []) :
    (∀ x : Temp, x.id < s.tr.temps → m'.temps x = m.temps x) ∧ m'.parms = [] := by
  obtain ⟨code, -, hdrop, hseg, hsettle⟩ := h.grown.drop
  have hrun := h.completes
  rw [hdrop] at hrun
  exact hseg.kept hsettle hm hrun

theorem Computes.added (h : Computes w k e s m t s' m') : Added k s (some t) s' := by
  have hgrown := visitExpr_grown k e s
  rw [Gives, Cmd.Wp, h.visited] at hgrown
  exact hgrown

theorem Computes.ran (h : Computes w k e s m t s' m') : Ran w s m s' m' := ⟨h.added.1, h.runs⟩

theorem Computes.older (h : Computes w k e s m t s' m') (hb : Below k s) : t.id < s'.tr.temps :=
  h.added.2 hb t rfl

theorem Computes.unique (h : Computes w k e s m t s' m') (h' : Computes w k e s m t' s'' m'') :
    t = t' ∧ s' = s'' ∧ m' = m'' := by
  have hsame := h.visited.symm.trans h'.visited
  simp only [Outcome.ok.injEq, Option.some.injEq] at hsame
  obtain ⟨rfl, rfl⟩ := hsame
  exact ⟨rfl, rfl, h.runs.unique h'.runs⟩

/-- A translation at the end of the code. -/
theorem ran_emit {α : Type} {c : Trans α} {new : α → Nat → Prop} (hc : Emits c false false new)
    (hrun : w.callees.Completes w.lay (codeOf c s.tr.temps s.tr.labels) m m')
    (hcode : (c s.tr).2.code = s.tr.code ++ codeOf c s.tr.temps s.tr.labels) :
    Ran w s m { s with tr := (c s.tr).2 } m' := by
  have hgrown : Grown false false s { s with tr := (c s.tr).2 } :=
    (gives_emit hc s).1
  refine ⟨hgrown, ?_⟩
  show w.callees.Completes w.lay ((c s.tr).2.code.drop s.tr.code.length) m m'
  rw [hcode, List.drop_left]
  exact hrun

theorem ran_binary (opc : BinaryKind) (a b : Temp) (s : Output) (m : Machine) :
    Ran w s m { s with tr := (genBinary opc a b s.tr).2 }
      (m.setTemp ⟨s.tr.temps⟩ (opc.eval (m.temps a) (m.temps b))) :=
  ran_emit (genBinary_emits a b opc) (Reaches.single rfl) rfl

theorem ran_unary (opc : UnaryKind) (a : Temp) (s : Output) (m : Machine) :
    Ran w s m { s with tr := (genUnary opc a s.tr).2 }
      (m.setTemp ⟨s.tr.temps⟩ (opc.eval (m.temps a))) :=
  ran_emit (genUnary_emits a opc) (Reaches.single rfl) rfl

theorem ran_loadImm4 (value : Int) (s : Output) (m : Machine) :
    Ran w s m { s with tr := (genLoadImm4 value s.tr).2 }
      (m.setTemp ⟨s.tr.temps⟩ (BitVec.ofInt 32 value)) :=
  ran_emit (genLoadImm4_emits value) (Reaches.single rfl) rfl

/-- The call of `_StringEqual`. -/
theorem ran_stringEqual (a b : Temp) (s : Output) (hm : m.parms = []) :
    ∃ m', Ran w s m { s with tr := (callRoutine .STRING_EQUAL a b s.tr).2 } m' ∧
      m'.temps ⟨s.tr.temps⟩ = ofBool (w.sameString m.mem (m.temps a) (m.temps b)) := by
  set m1 : Machine := { m with parms := [m.temps a, m.temps b] } with hm1
  obtain ⟨m2, hcall⟩ := w.stringEqual m1 (m.temps a) (m.temps b) rfl
  refine ⟨m2.answer (some ⟨s.tr.temps⟩) (ofBool (w.sameString m.mem (m.temps a) (m.temps b))), ?_, ?_⟩
  · refine ran_emit (callRoutine_emits a b .STRING_EQUAL) ?_ ?_
    · have hfirst : w.callees.step w.lay (codeOf (callRoutine .STRING_EQUAL a b) s.tr.temps
          s.tr.labels) ⟨some [.parm a, .parm b, .directCall (some ⟨s.tr.temps⟩)
            Routine.STRING_EQUAL.label], m⟩ =
          some ⟨some [.parm b, .directCall (some ⟨s.tr.temps⟩) Routine.STRING_EQUAL.label],
            { m with parms := [m.temps a] }⟩ := by
        simp [Callees.step, stepTac, Machine.exec, hm]
      have hsecond : w.callees.step w.lay (codeOf (callRoutine .STRING_EQUAL a b) s.tr.temps
          s.tr.labels) ⟨some [.parm b, .directCall (some ⟨s.tr.temps⟩) Routine.STRING_EQUAL.label],
            { m with parms := [m.temps a] }⟩ =
          some ⟨some [.directCall (some ⟨s.tr.temps⟩) Routine.STRING_EQUAL.label], m1⟩ := rfl
      refine Reaches.head hfirst (Reaches.head hsecond (Reaches.single ?_))
      simp only [Callees.step, hcall]
      rfl
    · show s.tr.code ++ [_] ++ [_] ++ [_] = _
      rw [List.append_assoc, List.append_assoc]
      rfl
  · exact Function.update_self ..

end

/-! ## The operators -/

section

variable {w : World} {k : Context} {l r e : Expr Note} {s s1 s2 : Output} {m m1 m2 m3 : Machine}
  {t tl tr : Temp} {tag : BinaryTag}

/-- An instruction behind two sides. -/
theorem computes_onBoth (node : Note) (hl : Computes w k l s m tl s1 m1)
    (hr : Computes w k r s1 m1 tr s2 m2) {gen : Temp → Temp → Trans Temp}
    (hgen : genBinaryTag tag l.type r.type (some tl) (some tr) = onBoth gen (some tl) (some tr))
    (hran : Ran w s2 m2 { s2 with tr := (gen tl tr s2.tr).2 } m3) :
    Computes w k (.binary node tag l r) s m (gen tl tr s2.tr).1
      { s2 with tr := (gen tl tr s2.tr).2 } m3 := by
  refine ⟨?_, ((hl.ran.trans hr.ran).trans hran).completes⟩
  rw [visitExpr]
  simp only [bind, Cmd.seq, hl.visited, hr.visited, hgen]
  rfl

/-- The instruction of a comparison. -/
theorem compare_code {a b : Word} {v : Bool} (h : holds tag a b = some v)
    (types : tag = .EQ ∨ tag = .NE → comparedByWord l.type ∧ comparedByWord r.type) :
    ∃ opc : BinaryKind, opc.eval a b = ofBool v ∧
      ∀ x y, genBinaryTag tag l.type r.type x y = onBoth (genBinary opc) x y := by
  cases tag with
  | LT =>
    obtain rfl := Option.some_inj.mp h
    exact ⟨.les, rfl, fun _ _ => rfl⟩
  | LE =>
    obtain rfl := Option.some_inj.mp h
    exact ⟨.leq, rfl, fun _ _ => rfl⟩
  | GT =>
    obtain rfl := Option.some_inj.mp h
    exact ⟨.gtr, rfl, fun _ _ => rfl⟩
  | GE =>
    obtain rfl := Option.some_inj.mp h
    exact ⟨.geq, rfl, fun _ _ => rfl⟩
  | EQ =>
    obtain rfl := Option.some_inj.mp h
    obtain ⟨hl, hr⟩ := types (Or.inl rfl)
    refine ⟨.equ, rfl, fun _ _ => ?_⟩
    rw [genBinaryTag, genEquNeq, if_neg (not_or.mpr ⟨hl.1, hr.1⟩)]
    rfl
  | NE =>
    obtain rfl := Option.some_inj.mp h
    obtain ⟨hl, hr⟩ := types (Or.inr rfl)
    refine ⟨.neq, ?_, fun _ _ => ?_⟩
    · rw [BinaryKind.eval, bne, beq_eq_decide, decide_not]
    · rw [genBinaryTag, genEquNeq, if_neg (not_or.mpr ⟨hl.1, hr.1⟩)]
      rfl
  | _ => cases h

/-- The instruction of an operation on booleans. -/
theorem connect_code {op : Formula → Formula → Formula} (h : connective tag = some op)
    (types : l.type = .ty .BOOL ∧ r.type = .ty .BOOL) :
    ∃ opc : BinaryKind, (∀ f g, (op f g).word = opc.eval f.word g.word) ∧
      ∀ x y, genBinaryTag tag l.type r.type x y = onBoth (genBinary opc) x y := by
  have hstring : ¬ (l.type = .ty .STRING ∨ r.type = .ty .STRING) := by
    rw [types.1, types.2]
    decide
  cases tag with
  | AND =>
    obtain rfl := Option.some_inj.mp h
    exact ⟨.land, fun _ _ => rfl, fun _ _ => rfl⟩
  | OR =>
    obtain rfl := Option.some_inj.mp h
    exact ⟨.lor, fun _ _ => rfl, fun _ _ => rfl⟩
  | EQ =>
    obtain rfl := Option.some_inj.mp h
    refine ⟨.equ, fun _ _ => rfl, fun _ _ => ?_⟩
    rw [genBinaryTag, genEquNeq, if_neg hstring]
    rfl
  | NE =>
    obtain rfl := Option.some_inj.mp h
    refine ⟨.neq, fun _ _ => rfl, fun _ _ => ?_⟩
    rw [genBinaryTag, genEquNeq, if_neg hstring]
    rfl
  | _ => cases h

/-- Two sides, with the value of the first one still in its temp. -/
theorem Computes.both (hb : Below k s) (hm : m.parms = []) (hl : Computes w k l s m tl s1 m1)
    (hr : Computes w k r s1 m1 tr s2 m2) : m2.temps tl = m1.temps tl ∧ m2.parms = [] := by
  obtain ⟨-, hm1⟩ := hl.ran.kept hm
  obtain ⟨hkept, hm2⟩ := hr.ran.kept hm1
  exact ⟨hkept tl (hl.older hb), hm2⟩

/-- One instruction on the words of two sides. -/
theorem computes_binary (node : Note) (hb : Below k s) (hm : m.parms = [])
    (hl : Computes w k l s m tl s1 m1) (hr : Computes w k r s1 m1 tr s2 m2) {opc : BinaryKind}
    (hgen : ∀ x y, genBinaryTag tag l.type r.type x y = onBoth (genBinary opc) x y) :
    ∃ t s' m', Computes w k (.binary node tag l r) s m t s' m' ∧
      m'.temps t = opc.eval (m1.temps tl) (m2.temps tr) := by
  obtain ⟨hkept, -⟩ := Computes.both hb hm hl hr
  refine ⟨_, _, _, computes_onBoth node hl hr (hgen _ _) (ran_binary opc tl tr s2 m2), ?_⟩
  rw [← hkept]
  exact Function.update_self ..

theorem computes_literal (node : Note) (b : Bool) (s : Output) (m : Machine) :
    ∃ t s' m', Computes w k (.literal node (.bool b)) s m t s' m' ∧ m'.temps t = ofBool b := by
  refine ⟨⟨s.tr.temps⟩, _, _, ⟨?_, (ran_loadImm4 (if b then 1 else 0) s m).completes⟩, ?_⟩
  · rw [visitExpr]
    rfl
  · cases b <;> exact Function.update_self ..

theorem computes_not (node : Note) (he : Computes w k e s m t s1 m1) :
    ∃ t' s' m', Computes w k (.unary node .NOT e) s m t' s' m' ∧
      m'.temps t' = UnaryKind.lnot.eval (m1.temps t) := by
  refine ⟨⟨s1.tr.temps⟩, _, _, ⟨?_, (he.ran.trans (ran_unary .lnot t s1 m1)).completes⟩, ?_⟩
  · rw [visitExpr]
    simp only [bind, Cmd.seq, he.visited]
    rfl
  · exact Function.update_self ..

/-- The comparison of two strings. -/
theorem computes_stringEqual (node : Note) (hb : Below k s) (hm : m.parms = [])
    (hl : Computes w k l s m tl s1 m1) (hr : Computes w k r s1 m1 tr s2 m2)
    (types : l.type = .ty .STRING ∨ r.type = .ty .STRING) :
    (∃ t s' m', Computes w k (.binary node .EQ l r) s m t s' m' ∧
      m'.temps t = ofBool (w.sameString m2.mem (m1.temps tl) (m2.temps tr))) ∧
    ∃ t s' m', Computes w k (.binary node .NE l r) s m t s' m' ∧ m'.temps t =
      UnaryKind.lnot.eval (ofBool (w.sameString m2.mem (m1.temps tl) (m2.temps tr))) := by
  obtain ⟨hkept, hm2⟩ := Computes.both hb hm hl hr
  obtain ⟨m3, hcall, hword⟩ := ran_stringEqual (w := w) tl tr s2 hm2
  rw [hkept] at hword
  have hgen : ∀ tag, tag = .EQ ∨ tag = .NE → ∀ x y,
      genBinaryTag tag l.type r.type x y = onBoth (genStringEqual tag) x y := by
    rintro tag (rfl | rfl) x y
    · rw [genBinaryTag, genEquNeq, if_pos types]
    · rw [genBinaryTag, genEquNeq, if_pos types]
  constructor
  · exact ⟨_, _, _, computes_onBoth node hl hr (hgen .EQ (Or.inl rfl) _ _) hcall, hword⟩
  · refine ⟨_, _, _, computes_onBoth node hl hr (hgen .NE (Or.inr rfl) _ _)
      (hcall.trans (ran_unary .lnot ⟨s2.tr.temps⟩ _ m3)), ?_⟩
    rw [← hword]
    exact Function.update_self ..

/-- The test of an object, along the tables of its class and of the ancestors. -/
theorem computes_typeTest (node : Note) (name : String) {a c : ClassId} {vta vtc : VTable} {b : Bool}
    (hb : Below k s) (he : Computes w k e s m t s1 m1) (symbol : node.classSymbol = some a)
    (target : s1.vtable a = some vta) (own : s1.vtable c = some vtc)
    (object : m1.mem (m1.temps t) = w.lay.vtbl vtc.name)
    (linked : TablesLinked w.hierarchy s1 w.lay) (loaded : Loaded w.lay w.labels s1 m1.mem)
    (subclass : b = true ↔ w.hierarchy.Subclass c a) :
    ∃ t' s' m', Computes w k (.typeTest node e name) s m t' s' m' ∧ m'.temps t' = ofBool b := by
  obtain ⟨m2, hrun, -, hsub, hnosub⟩ := instanceof_runs linked loaded target own s1.tr.temps
    s1.tr.labels (he.older hb) object
  obtain ⟨hcode, hresult⟩ := genInstanceof_code t vta.name s1.tr.temps s1.tr.labels
  have hsettle : settle false (codeOf (genInstanceof t vta.name) s1.tr.temps s1.tr.labels) =
      some false := by
    rw [hcode]
    rfl
  have hcalls : w.callees.Completes w.lay (codeOf (genInstanceof t vta.name) s1.tr.temps s1.tr.labels)
      m1 m2 := by
    refine completes_of_completes hsettle ?_ ?_ hrun
    · rw [hcode]
      simp [instanceofCode, searchLoop]
    · rw [hcode]
      simp [instanceofCode, searchLoop]
  have hran := ran_emit (genInstanceof_emits t vta.name) hcalls
    (by rw [genInstanceof_run, hcode])
  refine ⟨⟨s1.tr.temps⟩, _, _, ⟨?_, (he.ran.trans hran).completes⟩, ?_⟩
  · rw [visitExpr]
    simp only [bind, Cmd.seq, he.visited, symbol, deref, pure, Cmd.ret, Cmd.get, target]
    rfl
  · rw [hresult] at hsub hnosub
    cases b with
    | true => exact hsub (subclass.mp rfl)
    | false => exact hnosub fun h => Bool.false_ne_true (subclass.mpr h)

end

/-- The code of a boolean expression runs to its end and leaves the word of the formula. -/
theorem Evaluates.computes {w : World} {k : Context} {e : Expr Note} {s : Output} {m : Machine}
    {f : Formula} (h : Evaluates w k e s m f) (hb : Below k s) (hm : m.parms = []) :
    ∃ t s' m', Computes w k e s m t s' m' ∧ m'.temps t = f.word := by
  induction h with
  | literal node b => exact computes_literal node b _ _
  | compare node tag left right types compared =>
    obtain ⟨opc, heval, hgen⟩ := compare_code compared types
    obtain ⟨t, s', m', hc, hword⟩ := computes_binary node hb hm left right hgen
    exact ⟨t, s', m', hc, hword.trans heval⟩
  | stringEqual node left right types =>
    exact (computes_stringEqual node hb hm left right types).1
  | stringUnequal node left right types =>
    exact (computes_stringEqual node hb hm left right types).2
  | connect node tag types connects _ first _ ihl ihr =>
    obtain ⟨tl', s1', m1', hl, hlword⟩ := ihl hb hm
    obtain ⟨rfl, rfl, rfl⟩ := first.unique hl
    obtain ⟨tr, s2, m2, hr, hrword⟩ := ihr (hb.grown hl.ran.grown) (hl.ran.kept hm).2
    obtain ⟨opc, hopc, hgen⟩ := connect_code connects types
    obtain ⟨t, s', m', hc, hword⟩ := computes_binary node hb hm hl hr hgen
    exact ⟨t, s', m', hc, by rw [hword, hlword, hrword, hopc]⟩
  | not node _ ih =>
    obtain ⟨t, s1, m1, he, hword⟩ := ih hb hm
    obtain ⟨t', s', m', hc, hnot⟩ := computes_not node he
    exact ⟨t', s', m', hc, by rw [hnot, hword]; rfl⟩
  | typeTest node name inst symbol target own object linked loaded subclass =>
    exact computes_typeTest node name hb inst symbol target own object linked loaded subclass
  | call call answer => exact ⟨_, _, _, call, answer⟩

/-- The code runs to its end and leaves 1 where the expression is true, and 0 where it is not. -/
def LeavesTruth (w : World) (k : Context) (e : Expr Note) (s : Output) (m : Machine) (f : Formula) :
    Prop :=
  ∃ t s' m', Computes w k e s m t s' m' ∧ m'.temps t = ofBool f.truth

/-- It does so if and only if the expression is not inverted, and no comparison of two sides of which
only one is inverted turns its truth over. -/
theorem leavesTruth_iff (w : World) (k : Context) (e : Expr Note) (s : Output) (m : Machine)
    (f : Formula) (hb : Below k s) (hm : m.parms = []) (h : Evaluates w k e s m f) :
    LeavesTruth w k e s m f ↔ f.inverted = false ∧ f.reading = f.truth := by
  obtain ⟨t, s', m', hc, hword⟩ := h.computes hb hm
  rw [← Formula.word_right_iff, ← hword]
  constructor
  · rintro ⟨t', s'', m'', hc', hright⟩
    obtain ⟨rfl, rfl, rfl⟩ := hc.unique hc'
    exact hright
  · exact fun hright => ⟨t, s', m', hc, hright⟩

/-- Two classes, and callees that come back with 1 where their arguments are one word. -/
def quiet : World where
  lay := twoAddresses
  callees := {
    call := fun _ m => some (ofBool (m.parms[0]? == m.parms[1]?), { m with parms := [] })
    keeps := by
      intro f m w m' h
      obtain ⟨-, rfl⟩ := Prod.mk.inj (Option.some_inj.mp h)
      exact ⟨rfl, rfl⟩ }
  hierarchy := twoClasses
  labels _ := 0#32
  sameString _ a b := a == b
  stringEqual := by
    intro m a b hm
    exact ⟨{ m with parms := [] }, by simp [hm]⟩

def idle : Machine := ⟨fun _ => 0#32, 0#32, fun _ => 0#32, [], 0#32⟩

/-- The context of a static method. -/
def outside : Context := ⟨fun _ => [], none, []⟩

theorem below_start : Below outside Output.start := ⟨nofun, nofun⟩

/-- `!true` -/
def notTrue : Expr Note :=
  .unary (Note.fresh 2) .NOT (.literal (Note.fresh 1) (.bool true))

theorem evaluates_notTrue :
    Evaluates quiet outside notTrue Output.start idle (.not (.value true)) :=
  .not _ (.literal _ true)

/-- `!!true` is not inverted. -/
theorem leavesTruth_iff_twice :
    LeavesTruth quiet outside (.unary (Note.fresh 3) .NOT notTrue) Output.start idle
        (.not (.not (.value true))) ↔
      (Formula.not (.not (.value true))).inverted = false ∧
        (Formula.not (.not (.value true))).reading = (Formula.not (.not (.value true))).truth :=
  leavesTruth_iff quiet outside _ Output.start idle _ below_start rfl (.not _ evaluates_notTrue)

/-- `!true` leaves -2, which is neither 0 nor 1, and a jump on it does not see that it is false. -/
theorem not_leavesTruth : ¬ ∀ w k e s m f, Below k s → m.parms = [] → Evaluates w k e s m f →
    LeavesTruth w k e s m f := by
  intro h
  obtain ⟨t, s', m', hc, hright⟩ := h _ _ _ _ _ _ below_start rfl evaluates_notTrue
  obtain ⟨t', s'', m'', hc', hword⟩ := evaluates_notTrue.computes below_start rfl
  obtain ⟨rfl, rfl, rfl⟩ := hc.unique hc'
  rw [hright] at hword
  exact absurd hword (by decide)

/-- `!false == true` is read as false. -/
example : (Formula.equal (.not (.value false)) (.value true)).reading = false := by decide

end TransPass2

end nehcpu.decaf
