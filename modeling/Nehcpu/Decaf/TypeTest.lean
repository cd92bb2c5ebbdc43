-- The code of `instanceof` and of casts: the loop along the vtables, what `emitVTable` writes into them,
-- and the casts that get no check.
import Mathlib.Logic.Relation
import Nehcpu.Decaf.Translate

namespace nehcpu.decaf

open cpu simulation

/-! ## Classes and vtables -/

/-- The parents of the classes, without a cycle. -/
structure Hierarchy where
  parent : ClassId → Option ClassId
  acyclic : WellFounded fun p c => parent c = some p

/-- The second class is the first one or an ancestor of it. -/
def Hierarchy.Subclass (h : Hierarchy) : ClassId → ClassId → Prop :=
  Relation.ReflTransGen fun c p => h.parent c = some p

/-- A word of data, as the assembler is told. -/
inductive DataWord
  | zero
  | vtable (name : String)
  | string (str : String)
  | entry (l : Option Label)

/-- `emitVTable`, for one table: the parent, the name of the class and the entries. -/
def emitVTable (s : Output) (vt : VTable) : List DataWord :=
  (match vt.parent.bind s.vtable with
    | none => .zero
    | some parent => .vtable parent.name) ::
  .string vt.className :: vt.entries.map .entry

/-- What the linker writes for the word. -/
def DataWord.value (lay : Layout) (labels : Option Label → Word) : DataWord → Word
  | .zero => 0#32
  | .vtable name => lay.vtbl name
  | .string str => lay.str str
  | .entry l => labels l

/-- The vtables of the classes stand in the memory. -/
def Loaded (lay : Layout) (labels : Option Label → Word) (s : Output) (mem : Word → Word) : Prop :=
  ∀ c vt, s.vtable c = some vt → ∀ i w, (emitVTable s vt)[i]? = some w →
    mem (lay.vtbl vt.name + BitVec.ofNat 32 (WORD_SIZE * i)) = w.value lay labels

/-- The vtables are linked as the classes are, and the linker gives each its own address. -/
structure TablesLinked (h : Hierarchy) (s : Output) (lay : Layout) : Prop where
  parent : ∀ c vt, s.vtable c = some vt → vt.parent = h.parent c
  closed : ∀ c vt p, s.vtable c = some vt → h.parent c = some p → (s.vtable p).isSome
  distinct : ∀ c d vt wt, s.vtable c = some vt → s.vtable d = some wt →
    lay.vtbl vt.name = lay.vtbl wt.name → c = d
  nonzero : ∀ c vt, s.vtable c = some vt → lay.vtbl vt.name ≠ 0#32

/-- `createType` gives a class with its ancestors. -/
theorem mem_createType (h : Hierarchy) {fuel : Nat} {c d : ClassId} {cs : List ClassId}
    (hc : BuildSym.createType h.parent fuel c = .ok cs) : d ∈ cs ↔ h.Subclass c d := by
  induction fuel generalizing c cs with
  | zero => cases hc
  | succ fuel ih =>
    unfold BuildSym.createType at hc
    cases hp : h.parent c with
    | none =>
      rw [hp] at hc
      obtain rfl := Except.ok.inj hc
      rw [List.mem_singleton]
      constructor
      · rintro rfl
        exact Relation.ReflTransGen.refl
      · intro hd
        rcases Relation.ReflTransGen.cases_head hd with heq | ⟨p, hcp, -⟩
        · exact heq.symm
        · rw [hp] at hcp
          cases hcp
    | some p =>
      simp only [hp] at hc
      cases hr : BuildSym.createType h.parent fuel p with
      | error e =>
        rw [hr] at hc
        cases hc
      | ok ps =>
        rw [hr] at hc
        obtain rfl := Except.ok.inj hc
        rw [List.mem_cons, ih hr]
        constructor
        · rintro (rfl | hd)
          · exact Relation.ReflTransGen.refl
          · exact Relation.ReflTransGen.head hp hd
        · intro hd
          rcases Relation.ReflTransGen.cases_head hd with heq | ⟨q, hcq, hqd⟩
          · exact Or.inl heq.symm
          · rw [hp] at hcq
            obtain rfl := Option.some_inj.mp hcq
            exact Or.inr hqd

/-! ## The loop along the vtables -/

/-- The loop that looks for a vtable among those of a class and its ancestors. -/
def searchLoop (cond targetVp vp : Temp) (loop exit : Label) : List Tac :=
  [.mark loop, .binary .equ cond targetVp vp, .bnez cond exit, .load vp vp 0, .bnez vp loop]

section

variable {h : Hierarchy} {s : Output} {lay : Layout} {labels : Option Label → Word}
  {code tail : List Tac} {m : Machine} {cond targetVp vp : Temp} {loop exit : Label}

/-- The word of the parent. -/
theorem TablesLinked.parentWord (hl : TablesLinked h s lay) (hm : Loaded lay labels s m.mem) {c : ClassId}
    {vt : VTable} (hc : s.vtable c = some vt) :
    (h.parent c = none ∧ m.mem (lay.vtbl vt.name) = 0#32) ∨
      ∃ p pt, h.parent c = some p ∧ s.vtable p = some pt ∧
        m.mem (lay.vtbl vt.name) = lay.vtbl pt.name := by
  have hpar := hl.parent c vt hc
  cases hp : h.parent c with
  | none =>
    left
    have hw := hm c vt hc 0 .zero (by simp [emitVTable, hpar, hp])
    exact ⟨rfl, by simpa [DataWord.value] using hw⟩
  | some p =>
    right
    obtain ⟨pt, hpt⟩ := Option.isSome_iff_exists.mp (hl.closed c vt p hc hp)
    have hw := hm c vt hc 0 (.vtable pt.name) (by simp [emitVTable, hpar, hp, hpt])
    exact ⟨p, pt, rfl, hpt, by simpa [DataWord.value] using hw⟩

/-- One round of the loop, from the vtable of a class. -/
theorem search_round (hcv : cond ≠ vp) (hct : cond ≠ targetVp) (htv : targetVp ≠ vp)
    (hloop : whereTac code loop = searchLoop cond targetVp vp loop exit ++ tail) :
    (m.temps targetVp = m.temps vp →
      Reaches (stepTac lay code) ⟨some (searchLoop cond targetVp vp loop exit ++ tail), m⟩
        ⟨some (whereTac code exit), m.setTemp cond 1#32⟩) ∧
    (m.temps targetVp ≠ m.temps vp →
      Reaches (stepTac lay code) ⟨some (searchLoop cond targetVp vp loop exit ++ tail), m⟩
        ⟨some (if m.mem (m.temps vp) = 0#32 then tail
          else searchLoop cond targetVp vp loop exit ++ tail),
          (m.setTemp cond 0#32).setTemp vp (m.mem (m.temps vp))⟩) := by
  have hhead := @reaches_straight lay code m [.mark loop, .binary .equ cond targetVp vp]
    (by simp [Tac.isStraight]) (.bnez cond exit :: .load vp vp 0 :: .bnez vp loop :: tail)
  have hexec : [Tac.mark loop, .binary .equ cond targetVp vp].foldl (Machine.exec lay) m =
      m.setTemp cond (ofBool (m.temps targetVp == m.temps vp)) := by
    simp [Machine.exec, BinaryKind.eval]
  rw [hexec] at hhead
  constructor
  · intro heq
    have hone : ofBool (m.temps targetVp == m.temps vp) = 1#32 := by simp [heq, ofBool]
    rw [hone] at hhead
    apply hhead.trans
    apply Reaches.single
    simp [stepTac]
  · intro hne
    have hzero : ofBool (m.temps targetVp == m.temps vp) = 0#32 := by simp [hne, ofBool]
    rw [hzero] at hhead
    have htest : stepTac lay code ⟨some (.bnez cond exit :: .load vp vp 0 :: .bnez vp loop :: tail),
        m.setTemp cond 0#32⟩ =
        some ⟨some (.load vp vp 0 :: .bnez vp loop :: tail), m.setTemp cond 0#32⟩ := by
      simp [stepTac]
    have hload : stepTac lay code ⟨some (.load vp vp 0 :: .bnez vp loop :: tail),
        m.setTemp cond 0#32⟩ =
        some ⟨some (.bnez vp loop :: tail),
          (m.setTemp cond 0#32).setTemp vp (m.mem (m.temps vp))⟩ := by
      simp [stepTac, Machine.exec, Function.update_of_ne hcv.symm]
    have hback : stepTac lay code ⟨some (.bnez vp loop :: tail),
        (m.setTemp cond 0#32).setTemp vp (m.mem (m.temps vp))⟩ =
        some ⟨some (if m.mem (m.temps vp) = 0#32 then tail
          else searchLoop cond targetVp vp loop exit ++ tail),
          (m.setTemp cond 0#32).setTemp vp (m.mem (m.temps vp))⟩ := by
      simp [stepTac, hloop]
    exact hhead.trans (Reaches.head htest (Reaches.head hload (Reaches.single hback)))

/-- The class itself is found, and a class that is not is looked for among the ancestors. -/
theorem Hierarchy.subclass_step {a b : ClassId} (hne : a ≠ b) :
    h.Subclass b a ↔ ∃ p, h.parent b = some p ∧ h.Subclass p a := by
  constructor
  · intro hs
    rcases Relation.ReflTransGen.cases_head hs with heq | hs
    · exact absurd heq.symm hne
    · exact hs
  · rintro ⟨p, hp, hs⟩
    exact Relation.ReflTransGen.head hp hs

/-- How the search ends. -/
structure Searched (lay : Layout) (code tail : List Tac) (cond targetVp vp : Temp)
    (loop exit : Label) (hit : Prop) (m m' : Machine) : Prop where
  temps : ∀ t, t ≠ cond → t ≠ vp → m'.temps t = m.temps t
  mem : m'.mem = m.mem
  found : hit → m'.temps cond = 1#32 ∧
    Reaches (stepTac lay code) ⟨some (searchLoop cond targetVp vp loop exit ++ tail), m⟩
      ⟨some (whereTac code exit), m'⟩
  missed : ¬ hit →
    Reaches (stepTac lay code) ⟨some (searchLoop cond targetVp vp loop exit ++ tail), m⟩
      ⟨some tail, m'⟩

/-- The search from the vtable of class `b` finds that of `a` if and only if `a` is the class or an
ancestor: by induction on the hierarchy, one round for each class on the way up. -/
theorem search_ends (hl : TablesLinked h s lay) (hcv : cond ≠ vp) (hct : cond ≠ targetVp)
    (htv : targetVp ≠ vp) (hloop : whereTac code loop = searchLoop cond targetVp vp loop exit ++ tail)
    {a : ClassId} {vta : VTable} (ha : s.vtable a = some vta) (b : ClassId) {vtb : VTable}
    (hb : s.vtable b = some vtb) {m : Machine} (hm : Loaded lay labels s m.mem)
    (hta : m.temps targetVp = lay.vtbl vta.name) (htb : m.temps vp = lay.vtbl vtb.name) :
    ∃ m', Searched lay code tail cond targetVp vp loop exit (h.Subclass b a) m m' := by
  induction b using h.acyclic.induction generalizing m vtb with
  | _ b ih =>
    obtain ⟨hfind, hmiss⟩ := search_round (m := m) hcv hct htv hloop
    by_cases heq : a = b
    · subst heq
      have hvt : vta = vtb := Option.some_inj.mp (ha.symm.trans hb)
      have hsame : m.temps targetVp = m.temps vp := by rw [hta, htb, hvt]
      refine ⟨m.setTemp cond 1#32, ?_, rfl, ?_, ?_⟩
      · intro t htc _
        simp [Function.update_of_ne htc]
      · intro _
        exact ⟨by simp, hfind hsame⟩
      · intro hno
        exact absurd Relation.ReflTransGen.refl hno
    · have hdiff : m.temps targetVp ≠ m.temps vp := by
        rw [hta, htb]
        intro he
        exact heq (hl.distinct a b vta vtb ha hb he)
      have hround := hmiss hdiff
      set m1 := (m.setTemp cond 0#32).setTemp vp (m.mem (m.temps vp)) with hm1
      have htemps1 : ∀ t, t ≠ cond → t ≠ vp → m1.temps t = m.temps t := by
        intro t htc htv
        simp [hm1, Function.update_of_ne htc, Function.update_of_ne htv]
      rcases hl.parentWord hm hb with ⟨hp, hw⟩ | ⟨p, vtp, hp, hpt, hw⟩
      · -- the root
        rw [htb, hw, if_pos rfl] at hround
        refine ⟨m1, htemps1, rfl, ?_, fun _ => hround⟩
        intro hsub
        obtain ⟨p, hp', -⟩ := (Hierarchy.subclass_step heq).mp hsub
        rw [hp] at hp'
        cases hp'
      · -- one class up
        rw [htb, hw, if_neg (hl.nonzero p vtp hpt)] at hround
        have hta1 : m1.temps targetVp = lay.vtbl vta.name := by
          rw [htemps1 targetVp hct.symm htv, hta]
        have htp1 : m1.temps vp = lay.vtbl vtp.name := by
          simp [hm1, htb, hw]
        obtain ⟨m', hend⟩ := ih p hp hpt (m := m1) hm hta1 htp1
        have hiff : h.Subclass b a ↔ h.Subclass p a := by
          rw [Hierarchy.subclass_step heq]
          constructor
          · rintro ⟨q, hq, hs⟩
            rw [hp] at hq
            obtain rfl := Option.some_inj.mp hq
            exact hs
          · intro hs
            exact ⟨p, hp, hs⟩
        refine ⟨m', ?_, hend.mem, ?_, ?_⟩
        · intro t htc htv
          rw [hend.temps t htc htv, htemps1 t htc htv]
        · intro hsub
          obtain ⟨hone, hrun⟩ := hend.found (hiff.mp hsub)
          exact ⟨hone, hround.trans hrun⟩
        · intro hsub
          exact hround.trans (hend.missed fun hs => hsub (hiff.mpr hs))

end

/-! ## The code of a test and of a cast -/

/-- A message, printed. -/
def printCode (msg : Temp) : List Tac :=
  [.parm msg, .directCall none Intrinsic.PRINT_STRING.label]

def instanceofCode (inst : Temp) (vtbl : String) (k j : Nat) : List Tac :=
  [.loadVtbl ⟨k + 1⟩ vtbl, .load ⟨k + 2⟩ inst 0] ++
    (searchLoop ⟨k⟩ ⟨k + 1⟩ ⟨k + 2⟩ ⟨j⟩ ⟨j + 1⟩ ++ [.loadImm4 ⟨k⟩ 0, .mark ⟨j + 1⟩])

/-- The code of a cast that fails. -/
def castFailCode (val : Temp) (vtbl : String) (k j : Nat) : List Tac :=
  .loadStrConst ⟨k + 3⟩ CLASS_CAST_ERROR1 :: printCode ⟨k + 3⟩ ++
    (.load ⟨k + 4⟩ val 0 :: .load ⟨k + 5⟩ ⟨k + 4⟩ 4 :: printCode ⟨k + 5⟩) ++
    (.loadStrConst ⟨k + 6⟩ CLASS_CAST_ERROR2 :: printCode ⟨k + 6⟩) ++
    (.loadVtbl ⟨k + 7⟩ vtbl :: .load ⟨k + 8⟩ ⟨k + 7⟩ 4 :: printCode ⟨k + 8⟩) ++
    (.loadStrConst ⟨k + 9⟩ CLASS_CAST_ERROR3 :: printCode ⟨k + 9⟩) ++
    [.directCall none Intrinsic.HALT.label, .mark ⟨j + 1⟩]

def classCastCode (val : Temp) (vtbl : String) (k j : Nat) : List Tac :=
  [.loadVtbl ⟨k + 1⟩ vtbl, .load ⟨k + 2⟩ val 0] ++
    (searchLoop ⟨k⟩ ⟨k + 1⟩ ⟨k + 2⟩ ⟨j⟩ ⟨j + 1⟩ ++ castFailCode val vtbl k j)

section

attribute [local simp] codeOf resultOf genInstanceof genClassCast genPrintString genParm genLoadVTable
  genLoad genLoadImm4 genLoadStrConst genIntrinsicCall genMark genBnez createTempI4 createLabel append
  bind StateT.bind pure stateT_pure modify modifyGet MonadStateOf.modifyGet StateT.modifyGet
  searchLoop printCode

theorem genInstanceof_code (inst : Temp) (vtbl : String) (k j : Nat) :
    codeOf (genInstanceof inst vtbl) k j = instanceofCode inst vtbl k j ∧
      resultOf (genInstanceof inst vtbl) k j = ⟨k⟩ := by
  simp [instanceofCode]

theorem genClassCast_code (val : Temp) (vtbl : String) (k j : Nat) :
    codeOf (genClassCast val vtbl) k j = classCastCode val vtbl k j := by
  simp [classCastCode, castFailCode]

end

section

variable {h : Hierarchy} {s : Output} {lay : Layout} {labels : Option Label → Word} {m : Machine}
  {a b : ClassId} {vta vtb : VTable}

/-- The search, from the start of a piece of code whose temps and labels are new. -/
theorem search_from_start (hl : TablesLinked h s lay) (hm : Loaded lay labels s m.mem)
    (ha : s.vtable a = some vta) (hb : s.vtable b = some vtb) {obj : Temp} {k j : Nat} {tail : List Tac}
    (hobj : obj.id < k) (hvt : m.mem (m.temps obj) = lay.vtbl vtb.name) {code : List Tac}
    (hcode : code = [.loadVtbl ⟨k + 1⟩ vta.name, .load ⟨k + 2⟩ obj 0] ++
      (searchLoop ⟨k⟩ ⟨k + 1⟩ ⟨k + 2⟩ ⟨j⟩ ⟨j + 1⟩ ++ tail)) :
    ∃ m', (∀ t : Temp, t.id < k → m'.temps t = m.temps t) ∧ m'.mem = m.mem ∧
      (h.Subclass b a → m'.temps ⟨k⟩ = 1#32 ∧
        Reaches (stepTac lay code) ⟨some code, m⟩ ⟨some (whereTac code ⟨j + 1⟩), m'⟩) ∧
      (¬ h.Subclass b a → Reaches (stepTac lay code) ⟨some code, m⟩ ⟨some tail, m'⟩) := by
  have hloop : whereTac code ⟨j⟩ = searchLoop ⟨k⟩ ⟨k + 1⟩ ⟨k + 2⟩ ⟨j⟩ ⟨j + 1⟩ ++ tail := by
    rw [hcode]
    simp [whereTac, searchLoop, Tac.marked?]
  have hstart := @reaches_straight lay code m [.loadVtbl ⟨k + 1⟩ vta.name, .load ⟨k + 2⟩ obj 0]
    (by simp [Tac.isStraight]) (searchLoop ⟨k⟩ ⟨k + 1⟩ ⟨k + 2⟩ ⟨j⟩ ⟨j + 1⟩ ++ tail)
  rw [← hcode] at hstart
  have hne1 : obj ≠ ⟨k + 1⟩ := by
    rintro rfl
    exact absurd hobj (by simp)
  set m1 := [Tac.loadVtbl ⟨k + 1⟩ vta.name, .load ⟨k + 2⟩ obj 0].foldl (Machine.exec lay) m with hm1
  have hmem1 : m1.mem = m.mem := rfl
  obtain ⟨m', hend⟩ := search_ends (m := m1) hl (by simp) (by simp) (by simp) hloop ha b hb hm
    (by simp [hm1, Machine.exec]) (by simp [hm1, Machine.exec, Function.update_of_ne hne1, hvt])
  refine ⟨m', ?_, hend.mem.trans hmem1, ?_, ?_⟩
  · intro t ht
    have h0 : t ≠ ⟨k⟩ := by
      rintro rfl
      exact absurd ht (by simp)
    have h1 : t ≠ ⟨k + 1⟩ := by
      rintro rfl
      exact absurd ht (by simp)
    have h2 : t ≠ ⟨k + 2⟩ := by
      rintro rfl
      exact absurd ht (by simp)
    rw [hend.temps t h0 h2]
    simp [hm1, Machine.exec, Function.update_of_ne h1, Function.update_of_ne h2]
  · intro hsub
    obtain ⟨hone, hrun⟩ := hend.found hsub
    exact ⟨hone, hstart.trans hrun⟩
  · intro hsub
    exact hstart.trans (hend.missed hsub)

/-- `genInstanceof` gives 1 for the class and its ancestors, and 0 for all others. -/
theorem instanceof_runs (hl : TablesLinked h s lay) (hm : Loaded lay labels s m.mem)
    (ha : s.vtable a = some vta) (hb : s.vtable b = some vtb) {inst : Temp} (k j : Nat)
    (hinst : inst.id < k) (hvt : m.mem (m.temps inst) = lay.vtbl vtb.name) :
    ∃ m', Completes lay (codeOf (genInstanceof inst vta.name) k j) m m' ∧ m'.mem = m.mem ∧
      (h.Subclass b a → m'.temps (resultOf (genInstanceof inst vta.name) k j) = 1#32) ∧
      (¬ h.Subclass b a → m'.temps (resultOf (genInstanceof inst vta.name) k j) = 0#32) := by
  obtain ⟨hcode, hres⟩ := genInstanceof_code inst vta.name k j
  rw [hcode, hres]
  have hexit : whereTac (instanceofCode inst vta.name k j) ⟨j + 1⟩ = [.mark ⟨j + 1⟩] := by
    simp [whereTac, instanceofCode, searchLoop, Tac.marked?]
  have hstart : instanceofCode inst vta.name k j =
      [.loadVtbl ⟨k + 1⟩ vta.name, .load ⟨k + 2⟩ inst 0] ++
        (searchLoop ⟨k⟩ ⟨k + 1⟩ ⟨k + 2⟩ ⟨j⟩ ⟨j + 1⟩ ++ [.loadImm4 ⟨k⟩ 0, .mark ⟨j + 1⟩]) := rfl
  obtain ⟨m', -, hmem, hfound, hmissed⟩ := search_from_start hl hm ha hb hinst hvt hstart
  by_cases hsub : h.Subclass b a
  · obtain ⟨hone, hrun⟩ := hfound hsub
    rw [hexit] at hrun
    exact ⟨m', hrun.trans (Reaches.single rfl), hmem, fun _ => hone, fun hno => absurd hsub hno⟩
  · have hzero := @reaches_straight lay (instanceofCode inst vta.name k j) m'
      [.loadImm4 ⟨k⟩ 0, .mark ⟨j + 1⟩] (by simp [Tac.isStraight]) []
    refine ⟨_, (hmissed hsub).trans hzero, hmem, fun hs => absurd hs hsub, fun _ => ?_⟩
    simp [Machine.exec]

/-- Instructions without a jump and messages run one after the other. -/
theorem reaches_printing {code ts : List Tac}
    (hts : ∀ t ∈ ts, t.isStraight = true ∨ t = .directCall none Intrinsic.PRINT_STRING.label)
    (rest : List Tac) :
    ∃ m', Reaches (stepTac lay code) ⟨some (ts ++ rest), m⟩ ⟨some rest, m'⟩ := by
  induction ts generalizing m with
  | nil => exact ⟨m, Reaches.refl _⟩
  | cons t ts ih =>
    have hrest (m1 : Machine) := ih (m := m1) fun u hu => hts u (List.mem_cons_of_mem t hu)
    rcases hts t List.mem_cons_self with ht | rfl
    · obtain ⟨m', hrun⟩ := hrest (m.exec lay t)
      exact ⟨m', Reaches.head (step_straight ht (ts ++ rest)) hrun⟩
    · obtain ⟨m', hrun⟩ := hrest { m with parms := [] }
      exact ⟨m', Reaches.head rfl hrun⟩

/-- A cast that fails stops the program. -/
theorem castFail_stops {code : List Tac} (val : Temp) (vtbl : String) (k j : Nat) :
    ∃ m', Reaches (stepTac lay code) ⟨some (castFailCode val vtbl k j), m⟩ ⟨none, m'⟩ := by
  unfold castFailCode
  obtain ⟨m', hrun⟩ := @reaches_printing lay m code
    (.loadStrConst ⟨k + 3⟩ CLASS_CAST_ERROR1 :: printCode ⟨k + 3⟩ ++
      (.load ⟨k + 4⟩ val 0 :: .load ⟨k + 5⟩ ⟨k + 4⟩ 4 :: printCode ⟨k + 5⟩) ++
      (.loadStrConst ⟨k + 6⟩ CLASS_CAST_ERROR2 :: printCode ⟨k + 6⟩) ++
      (.loadVtbl ⟨k + 7⟩ vtbl :: .load ⟨k + 8⟩ ⟨k + 7⟩ 4 :: printCode ⟨k + 8⟩) ++
      (.loadStrConst ⟨k + 9⟩ CLASS_CAST_ERROR3 :: printCode ⟨k + 9⟩))
    (by simp [printCode, Tac.isStraight]) [.directCall none Intrinsic.HALT.label, .mark ⟨j + 1⟩]
  exact ⟨m', hrun.trans (Reaches.single rfl)⟩

/-- `genClassCast` falls through for the class and its ancestors, and stops for all others. -/
theorem classCast_runs (hl : TablesLinked h s lay) (hm : Loaded lay labels s m.mem)
    (ha : s.vtable a = some vta) (hb : s.vtable b = some vtb) {val : Temp} (k j : Nat)
    (hval : val.id < k) (hvt : m.mem (m.temps val) = lay.vtbl vtb.name) :
    (h.Subclass b a → ∃ m', Completes lay (codeOf (genClassCast val vta.name) k j) m m' ∧
      m'.mem = m.mem ∧ m'.temps val = m.temps val) ∧
    (¬ h.Subclass b a → Stops lay (codeOf (genClassCast val vta.name) k j) m) := by
  rw [genClassCast_code]
  have hexit : whereTac (classCastCode val vta.name k j) ⟨j + 1⟩ = [.mark ⟨j + 1⟩] := by
    simp [whereTac, classCastCode, castFailCode, printCode, searchLoop, Tac.marked?]
  have hstart : classCastCode val vta.name k j =
      [.loadVtbl ⟨k + 1⟩ vta.name, .load ⟨k + 2⟩ val 0] ++
        (searchLoop ⟨k⟩ ⟨k + 1⟩ ⟨k + 2⟩ ⟨j⟩ ⟨j + 1⟩ ++ castFailCode val vta.name k j) := rfl
  obtain ⟨m', htemps, hmem, hfound, hmissed⟩ := search_from_start hl hm ha hb hval hvt hstart
  constructor
  · intro hsub
    have hrun := (hfound hsub).2
    rw [hexit] at hrun
    exact ⟨m', hrun.trans (Reaches.single rfl), hmem, htemps val hval⟩
  · intro hsub
    obtain ⟨m'', hstop⟩ := castFail_stops (m := m') val vta.name k j
    exact ⟨m'', (hmissed hsub).trans hstop⟩

end

/-! ## Casts without a check -/

theorem isClassType_eq {t : ExprType} (h : t.isClassType = true) : ∃ c, t = .ty (.cls c) := by
  cases t with
  | func f => cases h
  | ty t =>
    cases t with
    | cls c => exact ⟨c, rfl⟩
    | base b => cases h
    | array e => cases h

/-- A cast that the type checker takes is one of a value of a class to a class. -/
theorem typeCast_checked {env : TypeCheck.Env} {u : Bool} {loc : Nat} {name name' : String}
    {e : Expr Nat} {node : Note} {expr : Expr Note}
    (hok : TypeCheck.visitExpr env u (.typeCast loc name e) [] = .ok (.typeCast node name' expr) []) :
    ∃ c d, expr.type = .ty (.cls c) ∧ node.classSymbol = some d := by
  rw [TypeCheck.visitExpr] at hok
  simp only [bind, command.Cmd.seq] at hok
  cases hv : TypeCheck.visitExpr env false e [] with
  | fail f es =>
    rw [hv] at hok
    cases hok
  | stop =>
    rw [hv] at hok
    cases hok
  | ok expr' es =>
    rw [hv] at hok
    have hissue (P : Prop) [Decidable P] (err : DecafError) (errs : List DecafError) :
        TypeCheck.issueIf P err errs = .ok () (errs ++ if P then [err] else []) := by
      unfold TypeCheck.issueIf
      split
      · rfl
      · rw [List.append_nil]
        rfl
    simp only [hissue, TypeCheck.findClass, bind, command.Cmd.seq, pure, command.Cmd.ret] at hok
    obtain ⟨hexpr, herrs⟩ := command.Outcome.ok.inj hok
    obtain ⟨hnode, -, rfl⟩ := Expr.typeCast.inj hexpr
    simp only [List.append_eq_nil_iff] at herrs
    obtain ⟨⟨-, hclass⟩, hfound⟩ := herrs
    have hcls : expr'.type.isClassType = true := by
      by_contra hno
      rw [if_pos (by simpa using hno)] at hclass
      cases hclass
    obtain ⟨c, hc⟩ := isClassType_eq hcls
    have hsome : (env.globals.lookupClass name).isSome = true := by
      by_contra hno
      rw [if_pos (by simpa using hno)] at hfound
      cases hfound
    obtain ⟨d, hd⟩ := Option.isSome_iff_exists.mp hsome
    exact ⟨c, d, hc, by rw [← hnode, hd]⟩

/-- No check is made if and only if the class of the cast is the static class of the value or an
ancestor of it. -/
theorem typeCast_code {h : Hierarchy} {k : TransPass2.Context} {fuel : Nat} {node : Note}
    {name : String} {expr : Expr Note} {c d : ClassId} (htype : expr.type = .ty (.cls c))
    (hclass : node.classSymbol = some d)
    (hchain : BuildSym.createType h.parent fuel c = .ok (k.chain c)) {s s1 : Output} {v : Temp}
    {vt : VTable} (hrun : TransPass2.visitExpr k expr s = .ok (some v) s1) (hvt : s1.vtable d = some vt) :
    (h.Subclass c d → TransPass2.visitExpr k (.typeCast node name expr) s = .ok (some v) s1) ∧
    (¬ h.Subclass c d → TransPass2.visitExpr k (.typeCast node name expr) s =
      .ok (some v) { s1 with tr := (genClassCast v vt.name s1.tr).2 }) := by
  have hmem := mem_createType h (d := d) hchain
  have hcompat : expr.type.compatible k.chain (.ty (.cls d)) = .ok (decide (d ∈ k.chain c)) := by
    rw [htype]
    simp [ExprType.compatible, Ty.compatible]
  rw [TransPass2.visitExpr]
  simp only [bind, command.Cmd.seq, hrun, hclass, deref, pure, command.Cmd.ret, hcompat, orThrow]
  constructor
  · intro hsub
    rw [if_pos (by simpa using hmem.mpr hsub)]
    rfl
  · intro hsub
    rw [if_neg (by simpa using fun hin => hsub (hmem.mp hin))]
    simp only [command.Cmd.seq, command.Cmd.get, hvt, operand, emit]
    rfl

/-- What tests and casts should do. The first two are about an object of class `b` in a temp, whose
first word is its vtable; the last is about casts that the type checker takes. -/
structure TypeTests (h : Hierarchy) (s : Output) (lay : Layout) (labels : Option Label → Word) :
    Prop where
  test : ∀ (m : Machine) (a b : ClassId) (vta vtb : VTable) (inst : Temp) (k j : Nat),
    Loaded lay labels s m.mem → s.vtable a = some vta → s.vtable b = some vtb → inst.id < k →
    m.mem (m.temps inst) = lay.vtbl vtb.name →
    ∃ m', Completes lay (codeOf (genInstanceof inst vta.name) k j) m m' ∧ m'.mem = m.mem ∧
      (h.Subclass b a → m'.temps (resultOf (genInstanceof inst vta.name) k j) = 1#32) ∧
      (¬ h.Subclass b a → m'.temps (resultOf (genInstanceof inst vta.name) k j) = 0#32)
  cast : ∀ (m : Machine) (a b : ClassId) (vta vtb : VTable) (val : Temp) (k j : Nat),
    Loaded lay labels s m.mem → s.vtable a = some vta → s.vtable b = some vtb → val.id < k →
    m.mem (m.temps val) = lay.vtbl vtb.name →
    (h.Subclass b a → ∃ m', Completes lay (codeOf (genClassCast val vta.name) k j) m m' ∧
      m'.mem = m.mem ∧ m'.temps val = m.temps val) ∧
    (¬ h.Subclass b a → Stops lay (codeOf (genClassCast val vta.name) k j) m)
  unchecked : ∀ env u loc name e node name' expr,
    TypeCheck.visitExpr env u (.typeCast loc name e) [] = .ok (.typeCast node name' expr) [] →
    ∃ c d, expr.type = .ty (.cls c) ∧ node.classSymbol = some d ∧
      ∀ (k : TransPass2.Context) (fuel : Nat) (s s1 : Output) (v : Temp) (vt : VTable),
        BuildSym.createType h.parent fuel c = .ok (k.chain c) →
        TransPass2.visitExpr k expr s = .ok (some v) s1 → s1.vtable d = some vt →
        (h.Subclass c d → TransPass2.visitExpr k (.typeCast node name' expr) s = .ok (some v) s1) ∧
        (¬ h.Subclass c d → TransPass2.visitExpr k (.typeCast node name' expr) s =
          .ok (some v) { s1 with tr := (genClassCast v vt.name s1.tr).2 })

/-- For every hierarchy without a cycle. -/
theorem type_tests (h : Hierarchy) (s : Output) (lay : Layout) (labels : Option Label → Word)
    (hl : TablesLinked h s lay) : TypeTests h s lay labels := by
  constructor
  · intro m a b vta vtb inst k j hm ha hb hinst hvt
    exact instanceof_runs hl hm ha hb k j hinst hvt
  · intro m a b vta vtb val k j hm ha hb hval hvt
    exact classCast_runs hl hm ha hb k j hval hvt
  · intro env u loc name e node name' expr hok
    obtain ⟨c, d, hc, hd⟩ := typeCast_checked hok
    refine ⟨c, d, hc, hd, ?_⟩
    intro k fuel s s1 v vt hchain hrun hvt
    exact typeCast_code hc hd hchain hrun hvt

/-- A class and one that extends it. -/
def twoClasses : Hierarchy where
  parent c := if c = 1 then some 0 else none
  acyclic := by
    apply Subrelation.wf (r := (· < ·)) _ Nat.lt_wfRel.wf
    intro p c hp
    split at hp
    · next hc =>
      obtain rfl := Option.some_inj.mp hp
      rw [hc]
      exact Nat.zero_lt_one
    · cases hp

def twoTables : Output :=
  { Output.start with
    vtable := fun c =>
      if c = 0 then some ⟨"_Main", "Main", [], none⟩
      else if c = 1 then some ⟨"_Sub", "Sub", [], some 0⟩ else none }

theorem heapStart_aligned : (0x10000#32).toNat % 4 = 0 := by decide

theorem heapStart_fits : (0x10000#32).toNat + MEM_BUF_SIZE ≤ 2 ^ 32 := by decide

def twoAddresses : Layout :=
  ⟨0x10000#32, fun _ => 0x20000#32, fun name => if name = "_Main" then 0x30000#32 else 0x40000#32,
    heapStart_aligned, heapStart_fits⟩

theorem twoTables_cases {c : ClassId} {vt : VTable} (h : twoTables.vtable c = some vt) :
    (c = 0 ∧ vt = ⟨"_Main", "Main", [], none⟩) ∨ (c = 1 ∧ vt = ⟨"_Sub", "Sub", [], some 0⟩) := by
  unfold twoTables at h
  simp only at h
  split at h
  · exact Or.inl ⟨‹_›, (Option.some_inj.mp h).symm⟩
  · split at h
    · exact Or.inr ⟨‹_›, (Option.some_inj.mp h).symm⟩
    · cases h

theorem twoTables_linked : TablesLinked twoClasses twoTables twoAddresses := by
  constructor
  · intro c vt hc
    rcases twoTables_cases hc with ⟨rfl, rfl⟩ | ⟨rfl, rfl⟩
    · rfl
    · rfl
  · intro c vt p hc hp
    rcases twoTables_cases hc with ⟨rfl, rfl⟩ | ⟨rfl, rfl⟩
    · cases hp
    · obtain rfl := Option.some_inj.mp hp
      rfl
  · intro c d vt wt hc hd he
    rcases twoTables_cases hc with ⟨rfl, rfl⟩ | ⟨rfl, rfl⟩ <;>
      rcases twoTables_cases hd with ⟨rfl, rfl⟩ | ⟨rfl, rfl⟩ <;>
      simp [twoAddresses] at he ⊢
  · intro c vt hc
    rcases twoTables_cases hc with ⟨rfl, rfl⟩ | ⟨rfl, rfl⟩ <;> simp [twoAddresses]

theorem type_tests_two : TypeTests twoClasses twoTables twoAddresses fun _ => 0#32 :=
  type_tests twoClasses twoTables twoAddresses (fun _ => 0#32) twoTables_linked

end nehcpu.decaf
