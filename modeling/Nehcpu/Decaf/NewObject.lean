-- The code that `genNewForClass` makes for the objects of a class, and what it does when it runs: the
-- fields are cleared one by one, or in a loop from the last one down, and the vtable is stored.
import Nehcpu.Decaf.Translate

namespace nehcpu.decaf

open cpu simulation

/-! ## The code -/

/-- Stores of zeros into the first fields. -/
def clearFields (zero newObj : Temp) (is : List Nat) : List Tac :=
  is.map fun i => .store zero newObj (WORD_SIZE * (i + 1))

theorem genClear_code (zero newObj : Temp) (is : List Nat) (tr : Translater) :
    genClear zero newObj is tr = ((), { tr with code := tr.code ++ clearFields zero newObj is }) := by
  induction is generalizing tr with
  | nil => simp [genClear, clearFields, pure, stateT_pure]
  | cons i is ih =>
    simp [genClear, genStore, append, bind, StateT.bind, modify, modifyGet,
      MonadStateOf.modifyGet, StateT.modifyGet, pure, ih, clearFields]

/-- The loop over the fields. -/
def fieldLoop (size zero unit newObj : Temp) (k j : Nat) : List Tac :=
  [.mark ⟨j⟩, .binary .sub ⟨k⟩ newObj unit, .unary .assign newObj ⟨k⟩,
    .binary .sub ⟨k + 1⟩ size unit, .unary .assign size ⟨k + 1⟩, .beqz size ⟨j + 1⟩,
    .store zero newObj 0, .branch ⟨j⟩, .mark ⟨j + 1⟩]

/-- The code up to the allocation of `n` fields. -/
def allocateObject (k j n : Nat) : List Tac :=
  [.mark ⟨j⟩, .loadImm4 ⟨k⟩ ((WORD_SIZE * (n + 1) : Nat) : Int), .parm ⟨k⟩]

/-- The end: the vtable is stored, and the object is returned. -/
def finishObject (vt newObj : Temp) (vtbl : String) : List Tac :=
  [.loadVtbl vt vtbl, .store vt newObj 0, .ret (some newObj)]

/-- The code behind the allocation. -/
def initObject (k j n : Nat) (vtbl : String) : List Tac :=
  if n = 0 then finishObject ⟨k + 2⟩ ⟨k + 1⟩ vtbl
  else if n < 5 then
    .loadImm4 ⟨k + 2⟩ 0 :: (clearFields ⟨k + 2⟩ ⟨k + 1⟩ (List.range n) ++
      finishObject ⟨k + 3⟩ ⟨k + 1⟩ vtbl)
  else
    [.loadImm4 ⟨k + 2⟩ 0, .loadImm4 ⟨k + 3⟩ WORD_SIZE, .binary .add ⟨k + 4⟩ ⟨k + 1⟩ ⟨k⟩] ++
      (fieldLoop ⟨k⟩ ⟨k + 2⟩ ⟨k + 3⟩ ⟨k + 4⟩ (k + 5) (j + 1) ++ finishObject ⟨k + 7⟩ ⟨k + 4⟩ vtbl)

def newObjectCode (k j n : Nat) (vtbl : String) : List Tac :=
  allocateObject k j n ++ .directCall (some ⟨k + 1⟩) Intrinsic.ALLOCATE.label ::
    initObject k j n vtbl

section

attribute [local simp] genNewObject genLoadImm4 genParm genIntrinsicCallI4 genAdd genSub genBinary
  genAssign genBeqz genBranch genStore genLoadVTable genMark genReturn createTempI4 createLabel append
  bind StateT.bind pure stateT_pure modify modifyGet MonadStateOf.modifyGet StateT.modifyGet

/-- The number of fields, as the code computes it from the size. -/
theorem fields_of_size (n : Nat) : ((WORD_SIZE * (n + 1) : Nat) : Int) / WORD_SIZE - 1 = n := by
  unfold WORD_SIZE
  omega

theorem genNewObject_code (k j n : Nat) (vtbl : String) :
    (genNewObject ⟨j⟩ ((WORD_SIZE * (n + 1) : Nat) : Int) vtbl ⟨k, j + 1, []⟩).2.code =
      newObjectCode k j n vtbl := by
  unfold genNewObject newObjectCode initObject
  rw [fields_of_size]
  by_cases h0 : n = 0
  · simp [h0, allocateObject, finishObject]
  · by_cases h5 : n < 5
    · have h5' : (n : Int) < 5 := by omega
      simp [h0, h5, h5', genClear_code, allocateObject, finishObject]
    · have h5' : ¬ (n : Int) < 5 := by omega
      simp [h0, h5, h5', allocateObject, finishObject, fieldLoop]

end

/-- What the pass leaves for a class of `n` fields. -/
theorem genNewForClass_code {s : Output} {c : ClassId} {vt : VTable} {n : Nat}
    (hvt : s.vtable c = some vt) (hsize : s.size c = ((WORD_SIZE * (n + 1) : Nat) : Int)) :
    ∃ s', TransPass1.genNewForClass c s = .ok () s' ∧
      s'.funcs = s.funcs ++
        [⟨⟨s.tr.labels⟩, [], newObjectCode s.tr.temps s.tr.labels n vt.name⟩] := by
  have hcode := genNewObject_code s.tr.temps s.tr.labels n vt.name
  rw [← hsize] at hcode
  let tr := (genNewObject ⟨s.tr.labels⟩ (s.size c) vt.name ⟨s.tr.temps, s.tr.labels + 1, []⟩).2
  refine ⟨{ s with
    tr := tr
    newFuncLabel := Function.update s.newFuncLabel c (some ⟨s.tr.labels⟩)
    funcs := s.funcs ++ [⟨⟨s.tr.labels⟩, [], tr.code⟩] }, ?_, ?_⟩
  · simp only [TransPass1.genNewForClass, beginFunc, emit, endFunc, createLabel, bind,
      command.Cmd.seq, command.Cmd.modify, command.Cmd.get, modifyGet, MonadStateOf.modifyGet,
      StateT.modifyGet, pure, hvt, tr]
  · simp only [tr, hcode]

/-! ## What is cleared -/

/-- The address of a field. -/
def fieldAddr (base : Word) (i : Nat) : Word := base + BitVec.ofNat 32 (WORD_SIZE * (i + 1))

/-- The memory with zeros in these fields. -/
def cleared (mem : Word → Word) (base : Word) (is : List Nat) : Word → Word := fun a =>
  if a ∈ is.map (fieldAddr base) then 0#32 else mem a

@[simp] theorem cleared_nil (mem : Word → Word) (base : Word) : cleared mem base [] = mem := by
  funext a
  simp [cleared]

theorem cleared_update (mem : Word → Word) (base : Word) (i : Nat) (is : List Nat) :
    cleared (Function.update mem (fieldAddr base i) 0#32) base is = cleared mem base (i :: is) := by
  funext a
  unfold cleared
  by_cases ha : a ∈ is.map (fieldAddr base)
  · rw [if_pos ha, List.map_cons, if_pos (List.mem_cons_of_mem _ ha)]
  · rw [if_neg ha]
    by_cases hi : a = fieldAddr base i
    · rw [hi, Function.update_self, if_pos (by simp)]
    · rw [Function.update_of_ne hi, if_neg]
      simp only [List.map_cons, List.mem_cons, not_or]
      exact ⟨hi, ha⟩

/-- The order of the fields makes no difference. -/
theorem cleared_congr {mem : Word → Word} {base : Word} {is js : List Nat}
    (h : ∀ i, i ∈ is ↔ i ∈ js) : cleared mem base is = cleared mem base js := by
  funext a
  unfold cleared
  simp only [List.mem_map, h]

section

variable {lay : Layout} {code : List Tac} {m : Machine}

/-- The stores that follow one another. -/
theorem clearFields_exec {zero newObj : Temp} (is : List Nat) (hzero : m.temps zero = 0#32) :
    (clearFields zero newObj is).foldl (Machine.exec lay) m =
      { m with mem := cleared m.mem (m.temps newObj) is } := by
  induction is generalizing m with
  | nil => simp [clearFields]
  | cons i is ih =>
    have haddr : m.temps newObj + BitVec.ofInt 32 (WORD_SIZE * (i + 1)) =
        fieldAddr (m.temps newObj) i := by
      unfold fieldAddr
      congr 1
    have hstore : Machine.exec lay m (.store zero newObj (WORD_SIZE * (i + 1))) =
        { m with mem := Function.update m.mem (fieldAddr (m.temps newObj) i) 0#32 } := by
      simp only [Machine.exec, haddr, hzero]
    show (clearFields zero newObj is).foldl (Machine.exec lay)
      (Machine.exec lay m (.store zero newObj (WORD_SIZE * (i + 1)))) = _
    rw [hstore, ih (by exact hzero)]
    simp only [cleared_update]

/-- The temps of the loop. -/
structure LoopTemps (size zero unit newObj : Temp) (k : Nat) : Prop where
  sizeOld : size.id < k
  zeroOld : zero.id < k
  unitOld : unit.id < k
  objOld : newObj.id < k
  objSize : newObj ≠ size
  objZero : newObj ≠ zero
  objUnit : newObj ≠ unit
  sizeZero : size ≠ zero
  sizeUnit : size ≠ unit

/-- A round up to the exit test: the pointer and the size go down by a word. -/
theorem fieldLoop_head {size zero unit newObj : Temp} {k j : Nat}
    (ht : LoopTemps size zero unit newObj k) (tail : List Tac) :
    ∃ m', Reaches (stepTac lay code) ⟨some (fieldLoop size zero unit newObj k j ++ tail), m⟩
        ⟨some (.beqz size ⟨j + 1⟩ :: .store zero newObj 0 :: .branch ⟨j⟩ :: .mark ⟨j + 1⟩ :: tail),
          m'⟩ ∧
      m'.temps newObj = m.temps newObj - m.temps unit ∧
      m'.temps size = m.temps size - m.temps unit ∧
      m'.temps unit = m.temps unit ∧ m'.temps zero = m.temps zero ∧ m'.mem = m.mem := by
  have hne {t : Temp} (h : t.id < k) : t ≠ ⟨k⟩ ∧ t ≠ ⟨k + 1⟩ := by
    constructor
    · rintro rfl
      exact absurd h (Nat.lt_irrefl _)
    · rintro rfl
      exact absurd h (Nat.not_lt.mpr (Nat.le_succ k))
  have hgo := @reaches_straight lay code m [.mark ⟨j⟩, .binary .sub ⟨k⟩ newObj unit,
    .unary .assign newObj ⟨k⟩, .binary .sub ⟨k + 1⟩ size unit, .unary .assign size ⟨k + 1⟩]
    (by simp [Tac.isStraight])
    (.beqz size ⟨j + 1⟩ :: .store zero newObj 0 :: .branch ⟨j⟩ :: .mark ⟨j + 1⟩ :: tail)
  refine ⟨_, hgo, ?_⟩
  have hs := hne ht.sizeOld
  have hz := hne ht.zeroOld
  have hu := hne ht.unitOld
  have ho := hne ht.objOld
  simp [Machine.exec, BinaryKind.eval, UnaryKind.eval, hs.1, hz.1, hz.2, hu.1, hu.2,
    ho.2, ht.objSize, ht.objSize.symm, ht.objUnit.symm, ht.objZero.symm, ht.sizeZero.symm,
    ht.sizeUnit.symm]

/-- One word down from the end of a field is the end of the one before. -/
theorem fieldAddr_sub (base : Word) (r : Nat) : fieldAddr base (r + 1) - 4#32 = fieldAddr base r := by
  unfold fieldAddr WORD_SIZE
  apply BitVec.eq_of_toNat_eq
  simp only [BitVec.toNat_sub, BitVec.toNat_add, BitVec.toNat_ofNat]
  omega

/-- The loop clears the fields below number `r`, the last one first. The exit test stands between the
subtractions and the store, so that the word of the vtable is left alone. -/
theorem fieldLoop_runs {size zero unit newObj : Temp} {k j : Nat} {tail : List Tac}
    (hloop : whereTac code ⟨j⟩ = fieldLoop size zero unit newObj k j ++ tail)
    (hexit : whereTac code ⟨j + 1⟩ = .mark ⟨j + 1⟩ :: tail)
    (ht : LoopTemps size zero unit newObj k) (base : Word) {r : Nat} (hr : r + 1 ≤ 2 ^ 30)
    (hunit : m.temps unit = 4#32) (hzero : m.temps zero = 0#32)
    (hsize : m.temps size = BitVec.ofNat 32 (4 * (r + 1))) (hobj : m.temps newObj = fieldAddr base r) :
    ∃ m', Reaches (stepTac lay code) ⟨some (fieldLoop size zero unit newObj k j ++ tail), m⟩
        ⟨some tail, m'⟩ ∧
      m'.temps newObj = base ∧ m'.mem = cleared m.mem base (List.range r) := by
  induction r generalizing m with
  | zero =>
    obtain ⟨m1, hhead, hobj1, hsize1, -, -, hmem1⟩ :=
      fieldLoop_head (m := m) (j := j) ht tail
    have hsz : m1.temps size = 0#32 := by
      rw [hsize1, hsize, hunit]
      rfl
    have hexits : stepTac lay code ⟨some (.beqz size ⟨j + 1⟩ :: .store zero newObj 0 ::
        .branch ⟨j⟩ :: .mark ⟨j + 1⟩ :: tail), m1⟩ = some ⟨some (.mark ⟨j + 1⟩ :: tail), m1⟩ := by
      rw [step_beqz, if_pos hsz, hexit]
    refine ⟨m1, hhead.trans (Reaches.head hexits (Reaches.single rfl)), ?_, ?_⟩
    · rw [hobj1, hobj, hunit]
      unfold fieldAddr
      simp [WORD_SIZE]
    · simp [hmem1]
  | succ r ih =>
    obtain ⟨m1, hhead, hobj1, hsize1, hunit1, hzero1, hmem1⟩ :=
      fieldLoop_head (m := m) (j := j) ht tail
    have hsz : m1.temps size = BitVec.ofNat 32 (4 * (r + 1)) := by
      rw [hsize1, hsize, hunit]
      apply BitVec.eq_of_toNat_eq
      simp only [BitVec.toNat_sub, BitVec.toNat_ofNat]
      omega
    have hne : ¬ m1.temps size = 0#32 := by
      intro he
      rw [hsz] at he
      have hnat := congrArg BitVec.toNat he
      simp only [BitVec.toNat_ofNat] at hnat
      omega
    have hptr : m1.temps newObj = fieldAddr base r := by
      rw [hobj1, hobj, hunit, fieldAddr_sub]
    -- the store, and back to the loop
    set m2 : Machine := { m1 with mem := Function.update m1.mem (fieldAddr base r) 0#32 } with hm2
    have htest : stepTac lay code ⟨some (.beqz size ⟨j + 1⟩ :: .store zero newObj 0 ::
        .branch ⟨j⟩ :: .mark ⟨j + 1⟩ :: tail), m1⟩ =
        some ⟨some (.store zero newObj 0 :: .branch ⟨j⟩ :: .mark ⟨j + 1⟩ :: tail), m1⟩ := by
      rw [step_beqz, if_neg hne]
    have hstore : stepTac lay code ⟨some (.store zero newObj 0 :: .branch ⟨j⟩ :: .mark ⟨j + 1⟩ ::
        tail), m1⟩ = some ⟨some (.branch ⟨j⟩ :: .mark ⟨j + 1⟩ :: tail), m2⟩ := by
      rw [step_straight rfl]
      simp [Machine.exec, hm2, hptr, hzero1, hzero]
    have hback : stepTac lay code ⟨some (.branch ⟨j⟩ :: .mark ⟨j + 1⟩ :: tail), m2⟩ =
        some ⟨some (fieldLoop size zero unit newObj k j ++ tail), m2⟩ := by
      simp [stepTac, hloop]
    obtain ⟨m', hrun, hobj', hmem'⟩ := ih (m := m2) (by omega) (hunit1.trans hunit)
      (hzero1.trans hzero) hsz hptr
    refine ⟨m', hhead.trans (Reaches.head htest (Reaches.head hstore (Reaches.head hback hrun))),
      hobj', ?_⟩
    rw [hmem', hm2, hmem1, cleared_update]
    apply cleared_congr
    intro i
    simp only [List.mem_cons, List.mem_range]
    omega

/-- The end of the function, with the object in its temp. -/
theorem finishObject_runs {vt newObj : Temp} {vtbl : String} (hne : newObj ≠ vt) :
    ∃ m', Reaches (stepTac lay code) ⟨some (finishObject vt newObj vtbl), m⟩
        ⟨some [.ret (some newObj)], m'⟩ ∧
      m'.temps newObj = m.temps newObj ∧
      m'.mem = Function.update m.mem (m.temps newObj) (lay.vtbl vtbl) := by
  have hgo := @reaches_straight lay code m [.loadVtbl vt vtbl, .store vt newObj 0]
    (by simp [Tac.isStraight]) [.ret (some newObj)]
  refine ⟨_, hgo, ?_⟩
  simp [Machine.exec, hne]

/-- The loop and its exit in the code of a class. -/
theorem whereTac_loop (k j n : Nat) (vtbl : String) (h5 : ¬ n < 5) :
    whereTac (newObjectCode k j n vtbl) ⟨j + 1⟩ =
        fieldLoop ⟨k⟩ ⟨k + 2⟩ ⟨k + 3⟩ ⟨k + 4⟩ (k + 5) (j + 1) ++
          finishObject ⟨k + 7⟩ ⟨k + 4⟩ vtbl ∧
      whereTac (newObjectCode k j n vtbl) ⟨j + 1 + 1⟩ =
        .mark ⟨j + 1 + 1⟩ :: finishObject ⟨k + 7⟩ ⟨k + 4⟩ vtbl := by
  have h0 : n ≠ 0 := by omega
  unfold newObjectCode initObject
  rw [if_neg h0, if_neg h5]
  constructor
  · simp [whereTac, allocateObject, fieldLoop, Tac.marked?]
  · have hne : ¬ j = j + 1 + 1 := by omega
    simp [whereTac, allocateObject, fieldLoop, Tac.marked?, hne]

/-- The code behind the allocation, once the allocator has given the base of the block. -/
theorem initObject_runs (k j n : Nat) (vtbl : String) (hcode : code = newObjectCode k j n vtbl)
    (base : Word) (hn : n + 1 ≤ 2 ^ 30) (hsize : m.temps ⟨k⟩ = BitVec.ofNat 32 (4 * (n + 1)))
    (hbase : m.temps ⟨k + 1⟩ = base) :
    ∃ m' newObj, Reaches (stepTac lay code) ⟨some (initObject k j n vtbl), m⟩
        ⟨some [.ret (some newObj)], m'⟩ ∧
      m'.temps newObj = base ∧
      m'.mem = Function.update (cleared m.mem base (List.range n)) base (lay.vtbl vtbl) := by
  unfold initObject
  by_cases h0 : n = 0
  · -- there are no fields
    rw [if_pos h0]
    have hne : (⟨k + 1⟩ : Temp) ≠ ⟨k + 2⟩ := by simp
    obtain ⟨m', hrun, hobj, hmem⟩ := finishObject_runs (m := m) hne
    refine ⟨m', ⟨k + 1⟩, hrun, hobj.trans hbase, ?_⟩
    rw [hmem, hbase, h0]
    simp
  rw [if_neg h0]
  by_cases h5 : n < 5
  · -- one store for each field
    rw [if_pos h5]
    set m1 := m.setTemp ⟨k + 2⟩ 0#32 with hm1
    have hzero : m1.temps ⟨k + 2⟩ = 0#32 := by simp [hm1]
    have hbase1 : m1.temps ⟨k + 1⟩ = base := by simp [hm1, hbase]
    have hfirst : stepTac lay code ⟨some (.loadImm4 ⟨k + 2⟩ 0 ::
        (clearFields ⟨k + 2⟩ ⟨k + 1⟩ (List.range n) ++ finishObject ⟨k + 3⟩ ⟨k + 1⟩ vtbl)), m⟩ =
        some ⟨some (clearFields ⟨k + 2⟩ ⟨k + 1⟩ (List.range n) ++
          finishObject ⟨k + 3⟩ ⟨k + 1⟩ vtbl), m1⟩ := step_straight rfl _
    have hclear := @reaches_straight lay code m1 (clearFields ⟨k + 2⟩ ⟨k + 1⟩ (List.range n))
      (by
        intro t ht
        obtain ⟨i, -, rfl⟩ := List.mem_map.mp ht
        rfl) (finishObject ⟨k + 3⟩ ⟨k + 1⟩ vtbl)
    rw [clearFields_exec _ hzero, hbase1] at hclear
    have hne : (⟨k + 1⟩ : Temp) ≠ ⟨k + 3⟩ := by simp
    obtain ⟨m', hrun, hobj, hmem⟩ := finishObject_runs
      (m := { m1 with mem := cleared m1.mem base (List.range n) }) hne
    refine ⟨m', ⟨k + 1⟩, Reaches.head hfirst (hclear.trans hrun), hobj.trans hbase1, ?_⟩
    rw [hmem, hbase1, hm1, Machine.setTemp_mem]
  · -- the loop
    rw [if_neg h5]
    obtain ⟨hloop, hexit⟩ := whereTac_loop k j n vtbl h5
    rw [← hcode] at hloop hexit
    have hsetup := @reaches_straight lay code m [.loadImm4 ⟨k + 2⟩ 0, .loadImm4 ⟨k + 3⟩ WORD_SIZE,
      .binary .add ⟨k + 4⟩ ⟨k + 1⟩ ⟨k⟩] (by simp [Tac.isStraight])
      (fieldLoop ⟨k⟩ ⟨k + 2⟩ ⟨k + 3⟩ ⟨k + 4⟩ (k + 5) (j + 1) ++ finishObject ⟨k + 7⟩ ⟨k + 4⟩ vtbl)
    set m1 := [Tac.loadImm4 ⟨k + 2⟩ 0, .loadImm4 ⟨k + 3⟩ WORD_SIZE,
      .binary .add ⟨k + 4⟩ ⟨k + 1⟩ ⟨k⟩].foldl (Machine.exec lay) m with hm1
    have ht : LoopTemps ⟨k⟩ ⟨k + 2⟩ ⟨k + 3⟩ ⟨k + 4⟩ (k + 5) := by
      constructor <;> simp
    obtain ⟨m2, hrun2, hobj2, hmem2⟩ := fieldLoop_runs (m := m1) hloop hexit ht base hn
      (by simp [hm1, Machine.exec, WORD_SIZE]) (by simp [hm1, Machine.exec])
      (by simp [hm1, Machine.exec, hsize])
      (by simp [hm1, Machine.exec, BinaryKind.eval, hsize, hbase, fieldAddr, WORD_SIZE])
    have hne : (⟨k + 4⟩ : Temp) ≠ ⟨k + 7⟩ := by simp
    obtain ⟨m', hrun, hobj, hmem⟩ := finishObject_runs (m := m2) hne
    refine ⟨m', ⟨k + 4⟩, hsetup.trans (hrun2.trans hrun), hobj.trans hobj2, ?_⟩
    rw [hmem, hobj2, hmem2]
    rfl

end

/-! ## New objects -/

/-- The call of the allocator has come back with a block. -/
def Machine.allocated (m : Machine) (newObj : Temp) (base cur_size : Word) : Machine :=
  { m with parms := [], cur_size := cur_size }.setTemp newObj base

/-- The code asks for a block of `n + 1` words, and with any block that it is given it ends, with the
vtable in the first word and zeros in the others. Nothing else is written, and the base of the block
is returned. -/
def CreatesObject (lay : Layout) (code : List Tac) (n : Nat) (vtbl : String) : Prop :=
  ∃ newObj rest, ∀ m : Machine, ∃ m1,
    Reaches (stepTac lay code) ⟨some code, m⟩
      ⟨some (.directCall (some newObj) Intrinsic.ALLOCATE.label :: rest), m1⟩ ∧
    m1.parms = m.parms ++ [BitVec.ofNat 32 (WORD_SIZE * (n + 1))] ∧ m1.mem = m.mem ∧
    ∀ base cur_size : Word, base.toNat + WORD_SIZE * (n + 1) ≤ 2 ^ 32 → ∃ m' t,
      Reaches (stepTac lay code) ⟨some rest, m1.allocated newObj base cur_size⟩
        ⟨some [.ret (some t)], m'⟩ ∧
      m'.temps t = base ∧ m'.mem base = lay.vtbl vtbl ∧
      (∀ i < n, m'.mem (fieldAddr base i) = 0#32) ∧
      ∀ a, a ≠ base → (∀ i < n, a ≠ fieldAddr base i) → m'.mem a = m.mem a

theorem fieldAddr_ne_base {base : Word} {n i : Nat} (hi : i < n) (hfit : WORD_SIZE * (n + 1) ≤ 2 ^ 32) :
    fieldAddr base i ≠ base := by
  intro h
  have hnat := congrArg BitVec.toNat h
  unfold fieldAddr WORD_SIZE at *
  simp only [BitVec.toNat_add, BitVec.toNat_ofNat] at hnat
  have := base.isLt
  omega

theorem newObjectCode_creates (lay : Layout) (k j n : Nat) (vtbl : String) :
    CreatesObject lay (newObjectCode k j n vtbl) n vtbl := by
  refine ⟨⟨k + 1⟩, initObject k j n vtbl, fun m => ?_⟩
  have hfirst := @reaches_straight lay (newObjectCode k j n vtbl) m (allocateObject k j n)
    (by simp [allocateObject, Tac.isStraight])
    (.directCall (some ⟨k + 1⟩) Intrinsic.ALLOCATE.label :: initObject k j n vtbl)
  set m1 := (allocateObject k j n).foldl (Machine.exec lay) m with hm1
  have hsize : m1.temps ⟨k⟩ = BitVec.ofNat 32 (WORD_SIZE * (n + 1)) := by
    simp only [hm1, allocateObject, List.foldl_cons, List.foldl_nil, Machine.exec,
      Machine.setTemp_temps, Function.update_self, BitVec.ofInt_natCast]
  have hmem1 : m1.mem = m.mem := rfl
  refine ⟨m1, hfirst, ?_, hmem1, ?_⟩
  · simp only [hm1, allocateObject, List.foldl_cons, List.foldl_nil, Machine.exec,
      Machine.setTemp_temps, Machine.setTemp_parms, Function.update_self, BitVec.ofInt_natCast]
  intro base cur_size hfit
  have hn : n + 1 ≤ 2 ^ 30 := by
    unfold WORD_SIZE at hfit
    omega
  obtain ⟨m', t, hrun, hobj, hmem⟩ := initObject_runs
    (m := m1.allocated ⟨k + 1⟩ base cur_size) k j n vtbl rfl base hn
    (by simp [Machine.allocated, hsize, WORD_SIZE]) (by simp [Machine.allocated])
  have hmem' : m'.mem = Function.update (cleared m.mem base (List.range n)) base (lay.vtbl vtbl) :=
    hmem
  refine ⟨m', t, hrun, hobj, ?_, ?_, ?_⟩
  · rw [hmem', Function.update_self]
  · intro i hi
    rw [hmem', Function.update_of_ne (fieldAddr_ne_base hi (by omega))]
    apply if_pos
    exact List.mem_map_of_mem (List.mem_range.mpr hi)
  · intro a ha hfields
    rw [hmem', Function.update_of_ne ha]
    apply if_neg
    intro hmemb
    obtain ⟨i, hi, rfl⟩ := List.mem_map.mp hmemb
    exact hfields i (List.mem_range.mp hi) rfl

/-- The function that `genNewForClass` leaves for a class creates its objects, however many fields
they have. -/
theorem genNewForClass_creates (lay : Layout) (s : Output) (c : ClassId) (vt : VTable) (n : Nat)
    (hvt : s.vtable c = some vt) (hsize : s.size c = ((WORD_SIZE * (n + 1) : Nat) : Int)) :
    ∃ s' f, TransPass1.genNewForClass c s = .ok () s' ∧ s'.funcs = s.funcs ++ [f] ∧
      CreatesObject lay f.code n vt.name := by
  obtain ⟨s', hrun, hfuncs⟩ := genNewForClass_code hvt hsize
  exact ⟨s', _, hrun, hfuncs, newObjectCode_creates lay _ _ n vt.name⟩

/-- A program with one class of six fields, where the second pass is about to begin. -/
def sixFields : Output :=
  { Output.start with
    vtable := fun _ => some ⟨"_Main", "Main", [], none⟩
    size := fun _ => 28 }

theorem genNewForClass_creates_six :
    ∃ s' f, TransPass1.genNewForClass 0 sixFields = .ok () s' ∧ s'.funcs = sixFields.funcs ++ [f] ∧
      CreatesObject ⟨0x10000#32, fun _ => 0#32, fun _ => 0x20000#32, by decide, by decide⟩ f.code 6
        "_Main" :=
  genNewForClass_creates _ sixFields 0 ⟨"_Main", "Main", [], none⟩ 6 rfl (by decide)

end nehcpu.decaf
