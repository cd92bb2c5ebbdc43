-- The code that `Translater` and `TransPass2` make for arrays, and what it does when it runs.
import Nehcpu.Decaf.TacRun

open Function

namespace nehcpu.decaf

open cpu simulation

/-! ## The translater -/

/-- The numbers of the next temp and the next label, and the code so far. -/
structure Translater where
  temps : Nat
  labels : Nat
  code : List Tac

abbrev Trans := StateM Translater

def append (t : Tac) : Trans Unit := modify fun tr => { tr with code := tr.code ++ [t] }

def createTempI4 : Trans Temp :=
  modifyGet fun tr => (⟨tr.temps⟩, { tr with temps := tr.temps + 1 })

def createLabel : Trans Label :=
  modifyGet fun tr => (⟨tr.labels⟩, { tr with labels := tr.labels + 1 })

def genAdd (src1 src2 : Temp) : Trans Temp := do
  let dst ← createTempI4
  append (.binary .add dst src1 src2)
  pure dst

def genMul (src1 src2 : Temp) : Trans Temp := do
  let dst ← createTempI4
  append (.mult src1 src2)
  append (.mflo dst)
  pure dst

def genLes (src1 src2 : Temp) : Trans Temp := do
  let dst ← createTempI4
  append (.binary .les dst src1 src2)
  pure dst

def genLoad (base : Temp) (offset : Int) : Trans Temp := do
  let dst ← createTempI4
  append (.load dst base offset)
  pure dst

def genStore (src base : Temp) (offset : Int) : Trans Unit := append (.store src base offset)

def genLoadImm4 (imm : Int) : Trans Temp := do
  let dst ← createTempI4
  append (.loadImm4 dst imm)
  pure dst

def genLoadStrConst (value : String) : Trans Temp := do
  let dst ← createTempI4
  append (.loadStrConst dst value)
  pure dst

/-- The call of an intrinsic without a result. -/
def genIntrinsicCall (intrn : Intrinsic) : Trans Unit := append (.directCall none intrn.label)

def genIntrinsicCallI4 (intrn : Intrinsic) : Trans Temp := do
  let dst ← createTempI4
  append (.directCall (some dst) intrn.label)
  pure dst

def ARRAY_INDEX_OUT_OF_BOUND : String := "Decaf runtime error: Array subscript out of bounds\n"

def NEGATIVE_ARR_SIZE : String := "Decaf runtime error: Cannot create negative-sized array\n"

def genCheckArrayIndex (array index : Temp) : Trans Unit := do
  let length ← genLoad array (-WORD_SIZE)
  let cond ← genLes index length
  let err ← createLabel
  append (.beqz cond err)
  let zero ← genLoadImm4 0
  let cond ← genLes index zero
  let exit ← createLabel
  append (.beqz cond exit)
  append (.mark err)
  let msg ← genLoadStrConst ARRAY_INDEX_OUT_OF_BOUND
  append (.parm msg)
  genIntrinsicCall .PRINT_STRING
  genIntrinsicCall .HALT
  append (.mark exit)

def genCheckNewArraySize (size : Temp) : Trans Unit := do
  let exit ← createLabel
  let zero ← genLoadImm4 0
  let cond ← genLes size zero
  append (.beqz cond exit)
  let msg ← genLoadStrConst NEGATIVE_ARR_SIZE
  append (.parm msg)
  genIntrinsicCall .PRINT_STRING
  genIntrinsicCall .HALT
  append (.mark exit)

def genNewArray (length : Temp) : Trans Temp := do
  genCheckNewArraySize length
  let unit ← genLoadImm4 WORD_SIZE
  let size ← genAdd unit (← genMul unit length)
  append (.parm size)
  let obj ← genIntrinsicCallI4 .ALLOCATE
  genStore length obj 0
  let loop ← createLabel
  let exit ← createLabel
  let zero ← genLoadImm4 0
  append (.binary .add obj obj size)
  append (.mark loop)
  append (.binary .sub size size unit)
  append (.beqz size exit)
  append (.binary .sub obj obj unit)
  genStore zero obj 0
  append (.branch loop)
  append (.mark exit)
  pure obj

/-- The address of an element, as `visitIndexed` and `visitAssign` make it. -/
def genElement (array index : Temp) : Trans Temp := do
  let esz ← genLoadImm4 WORD_SIZE
  let t ← genMul index esz
  genAdd array t

/-- `visitIndexed`, where the array and the index stand in their temps. -/
def visitIndexed (array index : Temp) : Trans Temp := do
  genCheckArrayIndex array index
  let base ← genElement array index
  genLoad base 0

/-- `visitAssign` for an element: the left side is visited first, with its load. -/
def visitAssign (array index expr : Temp) : Trans Unit := do
  let _ ← visitIndexed array index
  let base ← genElement array index
  genStore expr base 0

/-- The code of a piece of the translater that starts with these numbers. -/
def codeOf {α : Type} (tr : Trans α) (temp label : Nat) : List Tac :=
  (tr ⟨temp, label, []⟩).2.code

def resultOf {α : Type} (tr : Trans α) (temp label : Nat) : α := (tr ⟨temp, label, []⟩).1

/-! ## The code -/

/-- What stops the program with a message. -/
def failCode (msg : Temp) (text : String) (exit : Label) : List Tac :=
  [.loadStrConst msg text, .parm msg, .directCall none Intrinsic.PRINT_STRING.label,
    .directCall none Intrinsic.HALT.label, .mark exit]

/-- The loop that clears the elements from the last one down. -/
def clearCode (unit size obj zero : Temp) (loop exit : Label) : List Tac :=
  [.mark loop, .binary .sub size size unit, .beqz size exit, .binary .sub obj obj unit,
    .store zero obj 0, .branch loop, .mark exit]

/-- The code of `genNewArray` between the check and the loop. -/
def allocCode (length : Temp) (k : Nat) : List Tac :=
  [.loadImm4 ⟨k + 3⟩ 4, .mult ⟨k + 3⟩ length, .mflo ⟨k + 4⟩, .binary .add ⟨k + 5⟩ ⟨k + 3⟩ ⟨k + 4⟩,
    .parm ⟨k + 5⟩, .directCall (some ⟨k + 6⟩) Intrinsic.ALLOCATE.label, .store length ⟨k + 6⟩ 0,
    .loadImm4 ⟨k + 7⟩ 0, .binary .add ⟨k + 6⟩ ⟨k + 6⟩ ⟨k + 5⟩]

/-- The code of `genCheckArrayIndex`, with what comes behind it. -/
def indexCode (array index : Temp) (k j : Nat) (tail : List Tac) : List Tac :=
  [.load ⟨k⟩ array (-4), .binary .les ⟨k + 1⟩ index ⟨k⟩] ++ .beqz ⟨k + 1⟩ ⟨j⟩ ::
    ([.loadImm4 ⟨k + 2⟩ 0, .binary .les ⟨k + 3⟩ index ⟨k + 2⟩] ++ .beqz ⟨k + 3⟩ ⟨j + 1⟩ ::
    .mark ⟨j⟩ :: (failCode ⟨k + 4⟩ ARRAY_INDEX_OUT_OF_BOUND ⟨j + 1⟩ ++ tail))

/-- The code of `genElement`. -/
def elementCode (array index : Temp) (k : Nat) : List Tac :=
  [.loadImm4 ⟨k⟩ 4, .mult index ⟨k⟩, .mflo ⟨k + 1⟩, .binary .add ⟨k + 2⟩ array ⟨k + 1⟩]

theorem stateT_pure {σ α : Type} (a : α) (s : σ) :
    (StateT.pure a : StateT σ Id α) s = (a, s) := rfl

section

attribute [local simp] codeOf genNewArray genCheckNewArraySize genCheckArrayIndex visitIndexed
  visitAssign genElement genLoadImm4 genAdd genMul genLes genLoad genStore genLoadStrConst
  genIntrinsicCall genIntrinsicCallI4 createTempI4 createLabel append bind StateT.bind pure
  stateT_pure modify modifyGet MonadStateOf.modifyGet StateT.modifyGet failCode clearCode allocCode
  elementCode WORD_SIZE

variable (k j : Nat)

theorem newArray_code (length : Temp) : codeOf (genNewArray length) k j =
    [.loadImm4 ⟨k⟩ 0, .binary .les ⟨k + 1⟩ length ⟨k⟩] ++ .beqz ⟨k + 1⟩ ⟨j⟩ ::
      (failCode ⟨k + 2⟩ NEGATIVE_ARR_SIZE ⟨j⟩ ++ (allocCode length k ++
      clearCode ⟨k + 3⟩ ⟨k + 5⟩ ⟨k + 6⟩ ⟨k + 7⟩ ⟨j + 1⟩ ⟨j + 2⟩)) := by
  simp

theorem visitIndexed_code (array index : Temp) : codeOf (visitIndexed array index) k j =
    indexCode array index k j (elementCode array index (k + 5) ++ [.load ⟨k + 8⟩ ⟨k + 7⟩ 0]) := by
  simp [indexCode]

theorem visitAssign_code (array index expr : Temp) : codeOf (visitAssign array index expr) k j =
    indexCode array index k j (elementCode array index (k + 5) ++ .load ⟨k + 8⟩ ⟨k + 7⟩ 0 ::
      (elementCode array index (k + 9) ++ [.store expr ⟨k + 11⟩ 0])) := by
  simp [indexCode]

end

/-! ## What the code does -/

section

variable {lay : Layout} {code : List Tac} {m : Machine}

theorem step_beqz (op0 : Temp) (l : Label) (rest : List Tac) :
    stepTac lay code ⟨some (.beqz op0 l :: rest), m⟩ =
      some ⟨some (if m.temps op0 = 0#32 then whereTac code l else rest), m⟩ := rfl

/-- The message is printed and the program stops. -/
theorem fail_stops (msg : Temp) (text : String) (exit : Label) (rest : List Tac) :
    ∃ m', Reaches (stepTac lay code) ⟨some (failCode msg text exit ++ rest), m⟩ ⟨none, m'⟩ := by
  have hmsg := @reaches_straight lay code m [.loadStrConst msg text, .parm msg]
    (by simp [Tac.isStraight])
    (.directCall none Intrinsic.PRINT_STRING.label :: .directCall none Intrinsic.HALT.label ::
      .mark exit :: rest)
  refine ⟨_, hmsg.trans (Reaches.head rfl (Reaches.single rfl))⟩

theorem ofBool_eq_zero (b : Bool) : ofBool b = 0#32 ↔ b = false := by
  cases b <;> decide

/-- The loop clears one element in each round but the last one. -/
theorem clear_runs {unit size obj zero : Temp} {loop exit : Label}
    (hloop : whereTac code loop = clearCode unit size obj zero loop exit)
    (hexit : whereTac code exit = [.mark exit]) (hso : size ≠ obj) (hus : unit ≠ size)
    (huo : unit ≠ obj) (hzs : zero ≠ size) (hzo : zero ≠ obj) {r : Nat} (hr : r + 1 ≤ 2 ^ 30)
    (hunit : m.temps unit = 4#32) (hzero : m.temps zero = 0#32)
    (hsize : m.temps size = BitVec.ofNat 32 (4 * (r + 1))) :
    ∃ m', Reaches (stepTac lay code) ⟨some (clearCode unit size obj zero loop exit), m⟩
        ⟨some [], m'⟩ ∧
      m'.temps obj = m.temps obj - BitVec.ofNat 32 (4 * r) ∧
      m'.cur_size = m.cur_size ∧ m'.parms = m.parms ∧
      (∀ i < r, m'.mem (m.temps obj - BitVec.ofNat 32 (4 * (i + 1))) = 0#32) ∧
      ∀ a, (∀ i < r, a ≠ m.temps obj - BitVec.ofNat 32 (4 * (i + 1))) → m'.mem a = m.mem a := by
  induction r generalizing m with
  | zero =>
    have hsub : m.temps size - m.temps unit = 0#32 := by
      rw [hsize, hunit]
      rfl
    refine ⟨m.setTemp size 0#32, ?_, ?_, rfl, rfl, ?_, fun _ _ => rfl⟩
    · have hfirst : Reaches (stepTac lay code) ⟨some (clearCode unit size obj zero loop exit), m⟩
          ⟨some (.beqz size exit :: .binary .sub obj obj unit :: .store zero obj 0 ::
            .branch loop :: [.mark exit]), m.setTemp size (m.temps size - m.temps unit)⟩ :=
        @reaches_straight lay code m [.mark loop, .binary .sub size size unit]
          (by simp [Tac.isStraight]) _
      rw [hsub] at hfirst
      apply hfirst.trans
      have htest : stepTac lay code ⟨some (.beqz size exit :: .binary .sub obj obj unit ::
          .store zero obj 0 :: .branch loop :: [.mark exit]), m.setTemp size 0#32⟩ =
          some ⟨some [.mark exit], m.setTemp size 0#32⟩ := by
        simp [stepTac, hexit]
      exact Reaches.head htest (Reaches.single rfl)
    · simp [update_of_ne hso.symm]
    · intro i hi
      exact absurd hi (Nat.not_lt_zero i)
  | succ r ih =>
    have hsub : m.temps size - m.temps unit = BitVec.ofNat 32 (4 * (r + 1)) := by
      rw [hsize, hunit]
      apply BitVec.eq_of_toNat_eq
      simp only [BitVec.toNat_sub, BitVec.toNat_ofNat]
      omega
    have hne : BitVec.ofNat 32 (4 * (r + 1)) ≠ 0#32 := by
      intro he
      have ht := congrArg BitVec.toNat he
      simp only [BitVec.toNat_ofNat] at ht
      omega
    set m1 := m.setTemp size (BitVec.ofNat 32 (4 * (r + 1))) with hm1
    set m2 : Machine := { m1.setTemp obj (m.temps obj - 4#32) with
      mem := update m.mem (m.temps obj - 4#32) 0#32 } with hm2
    have hgo : Reaches (stepTac lay code) ⟨some (clearCode unit size obj zero loop exit), m⟩
        ⟨some (clearCode unit size obj zero loop exit), m2⟩ := by
      have hfirst : Reaches (stepTac lay code) ⟨some (clearCode unit size obj zero loop exit), m⟩
          ⟨some (.beqz size exit :: .binary .sub obj obj unit :: .store zero obj 0 ::
            .branch loop :: [.mark exit]), m.setTemp size (m.temps size - m.temps unit)⟩ :=
        @reaches_straight lay code m [.mark loop, .binary .sub size size unit]
          (by simp [Tac.isStraight]) _
      rw [hsub] at hfirst
      have htest : stepTac lay code ⟨some (.beqz size exit :: .binary .sub obj obj unit ::
          .store zero obj 0 :: .branch loop :: [.mark exit]), m1⟩ =
          some ⟨some (.binary .sub obj obj unit :: .store zero obj 0 :: .branch loop ::
            [.mark exit]), m1⟩ := by
        simp [stepTac, hm1, hne]
      have hstore : Reaches (stepTac lay code) ⟨some (.binary .sub obj obj unit ::
          .store zero obj 0 :: .branch loop :: [.mark exit]), m1⟩
          ⟨some (.branch loop :: [.mark exit]), m2⟩ := by
        have hgo := @reaches_straight lay code m1 [.binary .sub obj obj unit, .store zero obj 0]
          (by simp [Tac.isStraight]) (.branch loop :: [.mark exit])
        have hend : [.binary .sub obj obj unit, .store zero obj 0].foldl (Machine.exec lay) m1 =
            m2 := by
          simp [Machine.exec, BinaryKind.eval, hm2, hm1, update_of_ne hso.symm, update_of_ne hus,
            update_of_ne hzo, update_of_ne hzs, hunit, hzero]
        rw [hend] at hgo
        exact hgo
      have hback : stepTac lay code ⟨some (.branch loop :: [.mark exit]), m2⟩ =
          some ⟨some (clearCode unit size obj zero loop exit), m2⟩ := by
        simp [stepTac, hloop]
      exact hfirst.trans (Reaches.head htest (hstore.trans (Reaches.single hback)))
    obtain ⟨m', hrun, hobj, hcur, hparms, hclear, hrest⟩ := ih (m := m2) (by omega)
      (by simp [hm2, hm1, update_of_ne huo, update_of_ne hus, hunit])
      (by simp [hm2, hm1, update_of_ne hzo, update_of_ne hzs, hzero])
      (by simp [hm2, hm1, update_of_ne hso])
    have hobj2 : m2.temps obj = m.temps obj - 4#32 := by simp [hm2]
    have hshift : ∀ i, m.temps obj - 4#32 - BitVec.ofNat 32 (4 * i) =
        m.temps obj - BitVec.ofNat 32 (4 * (i + 1)) := by
      intro i
      apply BitVec.eq_of_toNat_eq
      simp only [BitVec.toNat_sub, BitVec.toNat_ofNat]
      omega
    rw [hobj2] at hobj hclear hrest
    refine ⟨m', hgo.trans hrun, ?_, hcur, hparms, ?_, ?_⟩
    · rw [hobj, hshift]
    · intro i hi
      rcases Nat.eq_zero_or_pos i with rfl | hpos
      · -- the element that this round clears
        by_cases hagain : ∃ i < r, m.temps obj - 4#32 = m.temps obj - 4#32 -
            BitVec.ofNat 32 (4 * (i + 1))
        · obtain ⟨i, hi, he⟩ := hagain
          have hz := hclear i hi
          rw [← he] at hz
          exact hz
        · have hkeep := hrest (m.temps obj - 4#32) fun i hi he => hagain ⟨i, hi, he⟩
          show m'.mem (m.temps obj - 4#32) = 0#32
          rw [hkeep]
          exact update_self _ _ _
      · obtain ⟨i, rfl⟩ : ∃ k, i = k + 1 := ⟨i - 1, by omega⟩
        rw [← hshift]
        exact hclear i (by omega)
    · intro a ha
      have hne4 : a ≠ m.temps obj - 4#32 := ha 0 (Nat.succ_pos r)
      rw [hrest a fun i hi => ?_]
      · exact update_of_ne hne4 _ _
      · rw [hshift]
        exact ha (i + 1) (by omega)

/-! ## `genNewArray` -/

variable {length : Temp} {k j : Nat}

theorem newArray_where : whereTac (codeOf (genNewArray length) k j) ⟨j⟩ = .mark ⟨j⟩ ::
      (allocCode length k ++ clearCode ⟨k + 3⟩ ⟨k + 5⟩ ⟨k + 6⟩ ⟨k + 7⟩ ⟨j + 1⟩ ⟨j + 2⟩) ∧
    whereTac (codeOf (genNewArray length) k j) ⟨j + 1⟩ =
      clearCode ⟨k + 3⟩ ⟨k + 5⟩ ⟨k + 6⟩ ⟨k + 7⟩ ⟨j + 1⟩ ⟨j + 2⟩ ∧
    whereTac (codeOf (genNewArray length) k j) ⟨j + 2⟩ = [.mark ⟨j + 2⟩] := by
  rw [newArray_code]
  refine ⟨?_, ?_, ?_⟩ <;> simp [whereTac, failCode, allocCode, clearCode, Tac.marked?]

theorem Temp.ne_of_lt {t : Temp} {n : Nat} (h : t.id < n) : t ≠ ⟨n⟩ := by
  rintro rfl
  exact Nat.lt_irrefl n h

/-- The check of the length, up to its test. -/
theorem newArray_check (hk : length.id < k) :
    ∃ m1, Reaches (stepTac lay (codeOf (genNewArray length) k j))
        ⟨some (codeOf (genNewArray length) k j), m⟩
        ⟨some (if (m.temps length).slt 0#32 then failCode ⟨k + 2⟩ NEGATIVE_ARR_SIZE ⟨j⟩ ++
            (allocCode length k ++ clearCode ⟨k + 3⟩ ⟨k + 5⟩ ⟨k + 6⟩ ⟨k + 7⟩ ⟨j + 1⟩ ⟨j + 2⟩)
          else .mark ⟨j⟩ :: (allocCode length k ++
            clearCode ⟨k + 3⟩ ⟨k + 5⟩ ⟨k + 6⟩ ⟨k + 7⟩ ⟨j + 1⟩ ⟨j + 2⟩)), m1⟩ ∧
      m1.temps length = m.temps length ∧ m1.mem = m.mem ∧ m1.parms = m.parms ∧
      m1.cur_size = m.cur_size := by
  have hl : length ≠ ⟨k⟩ := Temp.ne_of_lt hk
  have hl1 : length ≠ ⟨k + 1⟩ := Temp.ne_of_lt (Nat.lt_succ_of_lt hk)
  have hgo := @reaches_straight lay (codeOf (genNewArray length) k j) m
    [.loadImm4 ⟨k⟩ 0, .binary .les ⟨k + 1⟩ length ⟨k⟩] (by simp [Tac.isStraight])
    (.beqz ⟨k + 1⟩ ⟨j⟩ :: (failCode ⟨k + 2⟩ NEGATIVE_ARR_SIZE ⟨j⟩ ++ (allocCode length k ++
      clearCode ⟨k + 3⟩ ⟨k + 5⟩ ⟨k + 6⟩ ⟨k + 7⟩ ⟨j + 1⟩ ⟨j + 2⟩)))
  rw [← newArray_code] at hgo
  set m1 := [.loadImm4 ⟨k⟩ 0, .binary .les ⟨k + 1⟩ length ⟨k⟩].foldl (Machine.exec lay) m with hm1
  have hcond : m1.temps ⟨k + 1⟩ = ofBool ((m.temps length).slt 0#32) := by
    simp [hm1, Machine.exec, BinaryKind.eval, update_of_ne hl]
  refine ⟨m1, hgo.trans (Reaches.single ?_), ?_, rfl, rfl, rfl⟩
  · rw [step_beqz, hcond, newArray_where.1]
    cases (m.temps length).slt 0#32 with
    | false => rfl
    | true => rfl
  · show update (update m.temps ⟨k⟩ _) ⟨k + 1⟩ _ length = _
    rw [update_of_ne hl1, update_of_ne hl]

/-- A negative length stops the program. -/
theorem newArray_negative (hk : length.id < k) (hn : (m.temps length).slt 0#32 = true) :
    Stops lay (codeOf (genNewArray length) k j) m := by
  obtain ⟨m1, hgo, -⟩ := @newArray_check lay m length k j hk
  rw [if_pos hn] at hgo
  obtain ⟨m', hstop⟩ := @fail_stops lay (codeOf (genNewArray length) k j) m1
    ⟨k + 2⟩ NEGATIVE_ARR_SIZE ⟨j⟩ (allocCode length k ++
      clearCode ⟨k + 3⟩ ⟨k + 5⟩ ⟨k + 6⟩ ⟨k + 7⟩ ⟨j + 1⟩ ⟨j + 2⟩)
  exact ⟨m', hgo.trans hstop⟩

/-- The size of the block as the code computes it. -/
def blockSize (n : Word) : Word := 4#32 + 4#32 * n

/-- For any other length the code comes to the call of `_Alloc`. -/
theorem newArray_args (hk : length.id < k) (hn : (m.temps length).slt 0#32 = false)
    (hp : m.parms = []) :
    ∃ m1, Reaches (stepTac lay (codeOf (genNewArray length) k j))
        ⟨some (codeOf (genNewArray length) k j), m⟩
        ⟨some (.directCall (some ⟨k + 6⟩) Intrinsic.ALLOCATE.label :: .store length ⟨k + 6⟩ 0 ::
          .loadImm4 ⟨k + 7⟩ 0 :: .binary .add ⟨k + 6⟩ ⟨k + 6⟩ ⟨k + 5⟩ ::
          clearCode ⟨k + 3⟩ ⟨k + 5⟩ ⟨k + 6⟩ ⟨k + 7⟩ ⟨j + 1⟩ ⟨j + 2⟩), m1⟩ ∧
      m1.temps length = m.temps length ∧ m1.temps ⟨k + 3⟩ = 4#32 ∧
      m1.temps ⟨k + 5⟩ = blockSize (m.temps length) ∧ m1.mem = m.mem ∧
      m1.parms = [blockSize (m.temps length)] ∧ m1.cur_size = m.cur_size := by
  have hlt : ∀ i, length ≠ ⟨k + i⟩ := fun i => Temp.ne_of_lt (Nat.lt_add_right i hk)
  obtain ⟨m1, hgo, hl, hm, hp1, hc⟩ := @newArray_check lay m length k j hk
  rw [hn, if_neg Bool.false_ne_true] at hgo
  have hargs := @reaches_straight lay (codeOf (genNewArray length) k j) m1
    [.mark ⟨j⟩, .loadImm4 ⟨k + 3⟩ 4, .mult ⟨k + 3⟩ length, .mflo ⟨k + 4⟩,
      .binary .add ⟨k + 5⟩ ⟨k + 3⟩ ⟨k + 4⟩, .parm ⟨k + 5⟩] (by simp [Tac.isStraight])
    (.directCall (some ⟨k + 6⟩) Intrinsic.ALLOCATE.label :: .store length ⟨k + 6⟩ 0 ::
      .loadImm4 ⟨k + 7⟩ 0 :: .binary .add ⟨k + 6⟩ ⟨k + 6⟩ ⟨k + 5⟩ ::
      clearCode ⟨k + 3⟩ ⟨k + 5⟩ ⟨k + 6⟩ ⟨k + 7⟩ ⟨j + 1⟩ ⟨j + 2⟩)
  refine ⟨_, hgo.trans hargs, ?_, ?_, ?_, hm, ?_, hc⟩
  · simp [Machine.exec, update_of_ne (hlt 3), update_of_ne (hlt 4), update_of_ne (hlt 5), hl]
  · simp [Machine.exec]
  · simp [Machine.exec, BinaryKind.eval, update_of_ne (hlt 3), hl, blockSize]
  · simp [Machine.exec, BinaryKind.eval, update_of_ne (hlt 3), hl, blockSize, hp1, hp]

/-- When `_Alloc` stops, so does the program. -/
theorem newArray_full (hk : length.id < k) (hn : (m.temps length).slt 0#32 = false)
    (hp : m.parms = []) (ha : _Alloc m.cur_size (blockSize (m.temps length)) = none) :
    Stops lay (codeOf (genNewArray length) k j) m := by
  obtain ⟨m1, hgo, -, -, -, -, hp1, hc⟩ := @newArray_args lay m length k j hk hn hp
  refine ⟨m1, hgo.trans (Reaches.single ?_)⟩
  have hcall : m1.call lay (some ⟨k + 6⟩) Intrinsic.ALLOCATE.label = none := by
    simp [Machine.call, Intrinsic.label, hp1, hc, ha]
  simp only [stepTac, hcall]

/-- Else the elements in the block are cleared and its first word is the length. The number of the
elements that are cleared comes from the size. -/
theorem newArray_runs (hk : length.id < k) (hn : (m.temps length).slt 0#32 = false)
    (hp : m.parms = []) {offset cur_size : Word}
    (ha : _Alloc m.cur_size (blockSize (m.temps length)) = some (offset, cur_size)) :
    ∃ m', Completes lay (codeOf (genNewArray length) k j) m m' ∧
      m'.temps (resultOf (genNewArray length) k j) = lay.buf + offset + 4#32 ∧
      m'.cur_size = cur_size ∧ m'.parms = [] ∧
      (∀ i < (m.temps length).toNat % 2 ^ 30,
        m'.mem (lay.buf + offset + BitVec.ofNat 32 (4 * (i + 1))) = 0#32) ∧
      ∀ a, (∀ i < (m.temps length).toNat % 2 ^ 30,
          a ≠ lay.buf + offset + BitVec.ofNat 32 (4 * (i + 1))) →
        m'.mem a = update m.mem (lay.buf + offset) (m.temps length) a := by
  have hlt : ∀ i, length ≠ ⟨k + i⟩ := fun i => Temp.ne_of_lt (Nat.lt_add_right i hk)
  obtain ⟨m1, hgo, hl, hunit, hsize, hm, hp1, hc⟩ := @newArray_args lay m length k j hk hn hp
  set n := m.temps length with hndef
  set r := n.toNat % 2 ^ 30 with hr
  set m2 : Machine := { m1 with parms := [], cur_size := cur_size }.setTemp ⟨k + 6⟩
    (lay.buf + offset) with hm2
  have hcall : m1.call lay (some ⟨k + 6⟩) Intrinsic.ALLOCATE.label = some m2 := by
    simp [Machine.call, Intrinsic.label, hp1, hc, ha, hm2]
  have hrest := @reaches_straight lay (codeOf (genNewArray length) k j) m2
    [.store length ⟨k + 6⟩ 0, .loadImm4 ⟨k + 7⟩ 0, .binary .add ⟨k + 6⟩ ⟨k + 6⟩ ⟨k + 5⟩]
    (by simp [Tac.isStraight]) (clearCode ⟨k + 3⟩ ⟨k + 5⟩ ⟨k + 6⟩ ⟨k + 7⟩ ⟨j + 1⟩ ⟨j + 2⟩)
  set m3 := [.store length ⟨k + 6⟩ 0, .loadImm4 ⟨k + 7⟩ 0,
    .binary .add ⟨k + 6⟩ ⟨k + 6⟩ ⟨k + 5⟩].foldl (Machine.exec lay) m2 with hm3
  have hobj3 : m3.temps ⟨k + 6⟩ = lay.buf + offset + blockSize n := by
    simp [hm3, hm2, Machine.exec, BinaryKind.eval, hsize]
  have hmem3 : m3.mem = update m.mem (lay.buf + offset) n := by
    simp [hm3, hm2, Machine.exec, hm, update_of_ne (hlt 6), hl]
  have hsize3 : m3.temps ⟨k + 5⟩ = BitVec.ofNat 32 (4 * (r + 1)) := by
    have hs : m3.temps ⟨k + 5⟩ = blockSize n := by
      simp [hm3, hm2, Machine.exec, hsize]
    rw [hs]
    apply BitVec.eq_of_toNat_eq
    simp only [blockSize, BitVec.toNat_add, BitVec.toNat_mul, BitVec.toNat_ofNat]
    omega
  have hclear := @clear_runs lay (codeOf (genNewArray length) k j) m3 ⟨k + 3⟩ ⟨k + 5⟩ ⟨k + 6⟩
    ⟨k + 7⟩ ⟨j + 1⟩ ⟨j + 2⟩ newArray_where.2.1 newArray_where.2.2 (by simp) (by simp) (by simp)
    (by simp) (by simp) r (by omega) (by simp [hm3, hm2, Machine.exec, hunit])
    (by simp [hm3, hm2, Machine.exec]) hsize3
  obtain ⟨m', hrun, hobj, hcur, hparms, hzero, hkeep⟩ := hclear
  -- The loop goes down from the end of the block to its second word.
  have hdown : ∀ i ≤ r, m3.temps ⟨k + 6⟩ - BitVec.ofNat 32 (4 * i) =
      lay.buf + offset + BitVec.ofNat 32 (4 * (r - i + 1)) := by
    intro i hi
    rw [hobj3]
    apply BitVec.eq_of_toNat_eq
    simp only [blockSize, BitVec.toNat_add, BitVec.toNat_sub, BitVec.toNat_mul, BitVec.toNat_ofNat]
    omega
  refine ⟨m', ?_, ?_, hcur, hparms, ?_, ?_⟩
  · have hstep : stepTac lay (codeOf (genNewArray length) k j)
        ⟨some (.directCall (some ⟨k + 6⟩) Intrinsic.ALLOCATE.label :: .store length ⟨k + 6⟩ 0 ::
          .loadImm4 ⟨k + 7⟩ 0 :: .binary .add ⟨k + 6⟩ ⟨k + 6⟩ ⟨k + 5⟩ ::
          clearCode ⟨k + 3⟩ ⟨k + 5⟩ ⟨k + 6⟩ ⟨k + 7⟩ ⟨j + 1⟩ ⟨j + 2⟩), m1⟩ =
        some ⟨some (.store length ⟨k + 6⟩ 0 :: .loadImm4 ⟨k + 7⟩ 0 ::
          .binary .add ⟨k + 6⟩ ⟨k + 6⟩ ⟨k + 5⟩ ::
          clearCode ⟨k + 3⟩ ⟨k + 5⟩ ⟨k + 6⟩ ⟨k + 7⟩ ⟨j + 1⟩ ⟨j + 2⟩), m2⟩ := by
      simp only [stepTac, hcall]
    exact hgo.trans (Reaches.head hstep (hrest.trans hrun))
  · show m'.temps ⟨k + 6⟩ = _
    rw [hobj, hdown r (Nat.le_refl r), Nat.sub_self]
  · intro i hi
    have hz := hzero (r - i - 1) (by omega)
    have he : r - (r - i - 1 + 1) + 1 = i + 1 := by omega
    rw [hdown _ (by omega), he] at hz
    exact hz
  · intro a hne
    rw [hkeep a, hmem3]
    intro i hi
    rw [hdown _ (by omega)]
    exact hne (r - (i + 1)) (by omega)

/-! ## Elements -/

/-- The check lets the index through: the word in front of the elements is the length. -/
def Passes (m : Machine) (array index : Temp) : Prop :=
  (m.temps index).slt (m.mem (m.temps array - 4#32)) = true ∧ (m.temps index).slt 0#32 = false

instance (m : Machine) (array index : Temp) : Decidable (Passes m array index) :=
  inferInstanceAs (Decidable (_ ∧ _))

variable {array index : Temp} {tail : List Tac}

theorem index_where : whereTac (indexCode array index k j tail) ⟨j⟩ =
      .mark ⟨j⟩ :: (failCode ⟨k + 4⟩ ARRAY_INDEX_OUT_OF_BOUND ⟨j + 1⟩ ++ tail) ∧
    whereTac (indexCode array index k j tail) ⟨j + 1⟩ = .mark ⟨j + 1⟩ :: tail := by
  refine ⟨?_, ?_⟩ <;> simp [whereTac, indexCode, failCode, Tac.marked?]

/-- The machines differ in new temps only. -/
structure SameBut (k : Nat) (m m' : Machine) : Prop where
  temps : ∀ t : Temp, t.id < k → m'.temps t = m.temps t
  mem : m'.mem = m.mem
  parms : m'.parms = m.parms
  cur_size : m'.cur_size = m.cur_size

theorem SameBut.trans {m' m'' : Machine} (h : SameBut k m m') (h' : SameBut k m' m'') :
    SameBut k m m'' :=
  ⟨fun t ht => (h'.temps t ht).trans (h.temps t ht), h'.mem.trans h.mem, h'.parms.trans h.parms,
    h'.cur_size.trans h.cur_size⟩

theorem SameBut.setTemp (m : Machine) {i : Nat} (hi : k ≤ i) (w : Word) :
    SameBut k m (m.setTemp ⟨i⟩ w) := by
  refine ⟨fun t ht => ?_, rfl, rfl, rfl⟩
  exact update_of_ne (Temp.ne_of_lt (Nat.lt_of_lt_of_le ht hi)) _ _

/-- What the first test finds. -/
theorem index_upper (ha : array.id < k) (hi : index.id < k) :
    ∃ m1, Reaches (stepTac lay (indexCode array index k j tail))
        ⟨some (indexCode array index k j tail), m⟩
        ⟨some (if (m.temps index).slt (m.mem (m.temps array - 4#32)) then
            [.loadImm4 ⟨k + 2⟩ 0, .binary .les ⟨k + 3⟩ index ⟨k + 2⟩] ++ .beqz ⟨k + 3⟩ ⟨j + 1⟩ ::
            .mark ⟨j⟩ :: (failCode ⟨k + 4⟩ ARRAY_INDEX_OUT_OF_BOUND ⟨j + 1⟩ ++ tail)
          else .mark ⟨j⟩ :: (failCode ⟨k + 4⟩ ARRAY_INDEX_OUT_OF_BOUND ⟨j + 1⟩ ++ tail)), m1⟩ ∧
      SameBut k m m1 := by
  have hneg : m.temps array + 4294967292#32 = m.temps array - 4#32 := by
    rw [BitVec.sub_eq_add_neg]
    rfl
  have hgo := @reaches_straight lay (indexCode array index k j tail) m
    [.load ⟨k⟩ array (-4), .binary .les ⟨k + 1⟩ index ⟨k⟩] (by simp [Tac.isStraight])
    (.beqz ⟨k + 1⟩ ⟨j⟩ :: ([.loadImm4 ⟨k + 2⟩ 0, .binary .les ⟨k + 3⟩ index ⟨k + 2⟩] ++
      .beqz ⟨k + 3⟩ ⟨j + 1⟩ :: .mark ⟨j⟩ ::
      (failCode ⟨k + 4⟩ ARRAY_INDEX_OUT_OF_BOUND ⟨j + 1⟩ ++ tail)))
  have hend : [.load ⟨k⟩ array (-4), .binary .les ⟨k + 1⟩ index ⟨k⟩].foldl (Machine.exec lay) m =
      (m.setTemp ⟨k⟩ (m.mem (m.temps array - 4#32))).setTemp ⟨k + 1⟩
        (ofBool ((m.temps index).slt (m.mem (m.temps array - 4#32)))) := by
    simp [Machine.exec, BinaryKind.eval, update_of_ne (Temp.ne_of_lt hi), hneg]
  rw [hend] at hgo
  have hsame : SameBut k m ((m.setTemp ⟨k⟩ (m.mem (m.temps array - 4#32))).setTemp ⟨k + 1⟩
      (ofBool ((m.temps index).slt (m.mem (m.temps array - 4#32))))) :=
    (SameBut.setTemp m (Nat.le_refl k) _).trans (SameBut.setTemp _ (Nat.le_succ k) _)
  refine ⟨_, hgo.trans (Reaches.single ?_), hsame⟩
  rw [step_beqz, Machine.setTemp_temps, update_self, index_where.1]
  cases (m.temps index).slt (m.mem (m.temps array - 4#32)) with
  | false => rfl
  | true => rfl

/-- What the second test finds. -/
theorem index_lower (hi : index.id < k) :
    ∃ m1, Reaches (stepTac lay (indexCode array index k j tail))
        ⟨some ([.loadImm4 ⟨k + 2⟩ 0, .binary .les ⟨k + 3⟩ index ⟨k + 2⟩] ++ .beqz ⟨k + 3⟩ ⟨j + 1⟩ ::
          .mark ⟨j⟩ :: (failCode ⟨k + 4⟩ ARRAY_INDEX_OUT_OF_BOUND ⟨j + 1⟩ ++ tail)), m⟩
        ⟨some (if (m.temps index).slt 0#32 then
            .mark ⟨j⟩ :: (failCode ⟨k + 4⟩ ARRAY_INDEX_OUT_OF_BOUND ⟨j + 1⟩ ++ tail)
          else .mark ⟨j + 1⟩ :: tail), m1⟩ ∧
      SameBut k m m1 := by
  have hgo := @reaches_straight lay (indexCode array index k j tail) m
    [.loadImm4 ⟨k + 2⟩ 0, .binary .les ⟨k + 3⟩ index ⟨k + 2⟩] (by simp [Tac.isStraight])
    (.beqz ⟨k + 3⟩ ⟨j + 1⟩ :: .mark ⟨j⟩ ::
      (failCode ⟨k + 4⟩ ARRAY_INDEX_OUT_OF_BOUND ⟨j + 1⟩ ++ tail))
  have hend : [.loadImm4 ⟨k + 2⟩ 0, .binary .les ⟨k + 3⟩ index ⟨k + 2⟩].foldl (Machine.exec lay) m =
      (m.setTemp ⟨k + 2⟩ 0#32).setTemp ⟨k + 3⟩ (ofBool ((m.temps index).slt 0#32)) := by
    simp [Machine.exec, BinaryKind.eval, update_of_ne (Temp.ne_of_lt (Nat.lt_add_right 2 hi))]
  rw [hend] at hgo
  have hsame : SameBut k m ((m.setTemp ⟨k + 2⟩ 0#32).setTemp ⟨k + 3⟩
      (ofBool ((m.temps index).slt 0#32))) :=
    (SameBut.setTemp m (Nat.le_add_right k 2) _).trans (SameBut.setTemp _ (Nat.le_add_right k 3) _)
  refine ⟨_, hgo.trans (Reaches.single ?_), hsame⟩
  rw [step_beqz, Machine.setTemp_temps, update_self, index_where.2]
  cases (m.temps index).slt 0#32 with
  | false => rfl
  | true => rfl

/-- An index that does not pass stops the program. -/
theorem index_stops (ha : array.id < k) (hi : index.id < k) (h : ¬ Passes m array index) :
    Stops lay (indexCode array index k j tail) m := by
  obtain ⟨m1, hup, hsame⟩ := @index_upper lay m k j array index tail ha hi
  have hfail : ∀ m : Machine, ∃ m', Reaches (stepTac lay (indexCode array index k j tail))
      ⟨some (.mark ⟨j⟩ :: (failCode ⟨k + 4⟩ ARRAY_INDEX_OUT_OF_BOUND ⟨j + 1⟩ ++ tail)), m⟩
      ⟨none, m'⟩ := by
    intro m
    obtain ⟨m', hstop⟩ := @fail_stops lay (indexCode array index k j tail) m
      ⟨k + 4⟩ ARRAY_INDEX_OUT_OF_BOUND ⟨j + 1⟩ tail
    exact ⟨m', Reaches.head rfl hstop⟩
  cases hlt : (m.temps index).slt (m.mem (m.temps array - 4#32)) with
  | false =>
    rw [hlt, if_neg Bool.false_ne_true] at hup
    obtain ⟨m', hstop⟩ := hfail m1
    exact ⟨m', hup.trans hstop⟩
  | true =>
    rw [hlt, if_pos rfl] at hup
    have hneg : (m1.temps index).slt 0#32 = true := by
      rw [hsame.temps index hi, ← Bool.not_eq_false]
      exact fun hn => h ⟨hlt, hn⟩
    obtain ⟨m2, hlow, -⟩ := @index_lower lay m1 k j array index tail hi
    rw [hneg, if_pos rfl] at hlow
    obtain ⟨m', hstop⟩ := hfail m2
    exact ⟨m', hup.trans (hlow.trans hstop)⟩

/-- After one that passes the code behind the check runs. -/
theorem index_passes (ha : array.id < k) (hi : index.id < k) (h : Passes m array index) :
    ∃ m1, Reaches (stepTac lay (indexCode array index k j tail))
        ⟨some (indexCode array index k j tail), m⟩ ⟨some tail, m1⟩ ∧ SameBut k m m1 := by
  obtain ⟨m1, hup, hsame⟩ := @index_upper lay m k j array index tail ha hi
  rw [h.1, if_pos rfl] at hup
  obtain ⟨m2, hlow, hsame2⟩ := @index_lower lay m1 k j array index tail hi
  rw [hsame.temps index hi, h.2, if_neg Bool.false_ne_true] at hlow
  exact ⟨m2, hup.trans (hlow.trans (Reaches.single rfl)), hsame.trans hsame2⟩

/-- The address of an element as the code computes it. -/
def elementAddr (a i : Word) : Word := a + i * 4#32

theorem element_exec (ha : array.id < k) (hi : index.id < k) :
    ((elementCode array index k).foldl (Machine.exec lay) m).temps ⟨k + 2⟩ =
        elementAddr (m.temps array) (m.temps index) ∧
      SameBut k m ((elementCode array index k).foldl (Machine.exec lay) m) := by
  have hi0 : index ≠ ⟨k⟩ := Temp.ne_of_lt hi
  have ha0 : array ≠ ⟨k⟩ := Temp.ne_of_lt ha
  have ha1 : array ≠ ⟨k + 1⟩ := Temp.ne_of_lt (Nat.lt_succ_of_lt ha)
  refine ⟨?_, fun t ht => ?_, rfl, rfl, rfl⟩
  · simp [elementCode, Machine.exec, BinaryKind.eval, elementAddr, update_of_ne hi0,
      update_of_ne ha0, update_of_ne ha1]
  · have h0 : t ≠ ⟨k⟩ := Temp.ne_of_lt ht
    have h1 : t ≠ ⟨k + 1⟩ := Temp.ne_of_lt (Nat.lt_succ_of_lt ht)
    have h2 : t ≠ ⟨k + 2⟩ := Temp.ne_of_lt (Nat.lt_add_right 2 ht)
    simp [elementCode, Machine.exec, update_of_ne h0, update_of_ne h1, update_of_ne h2]

theorem element_straight (array index : Temp) (k : Nat) :
    ∀ t ∈ elementCode array index k, t.isStraight = true := by
  simp [elementCode, Tac.isStraight]

/-- A read of an element loads the word at its address. -/
theorem visitIndexed_runs (ha : array.id < k) (hi : index.id < k) (h : Passes m array index) :
    ∃ m', Completes lay (codeOf (visitIndexed array index) k j) m m' ∧
      m'.temps (resultOf (visitIndexed array index) k j) =
        m.mem (elementAddr (m.temps array) (m.temps index)) ∧
      m'.mem = m.mem ∧ m'.parms = m.parms ∧ m'.cur_size = m.cur_size := by
  rw [visitIndexed_code]
  obtain ⟨m1, hgo, hsame⟩ := @index_passes lay m k j array index
    (elementCode array index (k + 5) ++ [.load ⟨k + 8⟩ ⟨k + 7⟩ 0]) ha hi h
  have ha5 := Nat.lt_add_right 5 ha
  have hi5 := Nat.lt_add_right 5 hi
  obtain ⟨haddr, helem⟩ := @element_exec lay m1 (k + 5) array index ha5 hi5
  have hrun := @reaches_straight lay (indexCode array index k j (elementCode array index (k + 5) ++
    [.load ⟨k + 8⟩ ⟨k + 7⟩ 0])) m1 (elementCode array index (k + 5)) (element_straight _ _ _)
    [.load ⟨k + 8⟩ ⟨k + 7⟩ 0]
  set m2 := (elementCode array index (k + 5)).foldl (Machine.exec lay) m1
  refine ⟨_, hgo.trans (hrun.trans (Reaches.single rfl)), ?_, helem.mem.trans hsame.mem,
    helem.parms.trans hsame.parms, helem.cur_size.trans hsame.cur_size⟩
  show update m2.temps ⟨k + 8⟩ (m2.mem (m2.temps ⟨k + 7⟩ + BitVec.ofInt 32 0)) ⟨k + 8⟩ = _
  rw [update_self, haddr, helem.mem, hsame.mem, hsame.temps array ha, hsame.temps index hi]
  exact congrArg m.mem (BitVec.add_zero _)

/-- An assignment to an element stores at the same address. -/
theorem visitAssign_runs {expr : Temp} (ha : array.id < k) (hi : index.id < k) (he : expr.id < k)
    (h : Passes m array index) :
    ∃ m', Completes lay (codeOf (visitAssign array index expr) k j) m m' ∧
      m'.mem = update m.mem (elementAddr (m.temps array) (m.temps index)) (m.temps expr) ∧
      m'.parms = m.parms ∧ m'.cur_size = m.cur_size := by
  rw [visitAssign_code]
  set tail := elementCode array index (k + 5) ++ .load ⟨k + 8⟩ ⟨k + 7⟩ 0 ::
    (elementCode array index (k + 9) ++ [.store expr ⟨k + 11⟩ 0])
  obtain ⟨m1, hgo, hsame⟩ := @index_passes lay m k j array index tail ha hi h
  obtain ⟨-, helem⟩ := @element_exec lay m1 (k + 5) array index (Nat.lt_add_right 5 ha)
    (Nat.lt_add_right 5 hi)
  have hread := @reaches_straight lay (indexCode array index k j tail) m1
    (elementCode array index (k + 5)) (element_straight _ _ _)
    (.load ⟨k + 8⟩ ⟨k + 7⟩ 0 :: (elementCode array index (k + 9) ++ [.store expr ⟨k + 11⟩ 0]))
  set m2 := (elementCode array index (k + 5)).foldl (Machine.exec lay) m1
  set m3 := m2.exec lay (.load ⟨k + 8⟩ ⟨k + 7⟩ 0) with hm3
  have hload : SameBut (k + 5) m2 m3 := SameBut.setTemp m2 (by omega) _
  obtain ⟨haddr, helem'⟩ := @element_exec lay m3 (k + 9) array index (Nat.lt_add_right 9 ha)
    (Nat.lt_add_right 9 hi)
  have hwrite := @reaches_straight lay (indexCode array index k j tail) m3
    (elementCode array index (k + 9)) (element_straight _ _ _) [.store expr ⟨k + 11⟩ 0]
  set m4 := (elementCode array index (k + 9)).foldl (Machine.exec lay) m3
  have hback : ∀ t : Temp, t.id < k → m3.temps t = m.temps t := fun t ht => by
    rw [hload.temps t (Nat.lt_add_right 5 ht), helem.temps t (Nat.lt_add_right 5 ht),
      hsame.temps t ht]
  refine ⟨_, hgo.trans (hread.trans (Reaches.head rfl (hwrite.trans (Reaches.single rfl)))), ?_,
    ?_, ?_⟩
  · show update m4.mem (m4.temps ⟨k + 11⟩ + BitVec.ofInt 32 0) (m4.temps expr) = _
    rw [haddr, helem'.mem, hload.mem, helem.mem, hsame.mem, helem'.temps expr (by omega),
      hback array ha, hback index hi, hback expr he]
    exact congrArg (fun a => update m.mem a _) (BitVec.add_zero _)
  · show m4.parms = _
    rw [helem'.parms, hload.parms, helem.parms, hsame.parms]
  · show m4.cur_size = _
    rw [helem'.cur_size, hload.cur_size, helem.cur_size, hsame.cur_size]

end

end nehcpu.decaf
