-- What the code of a block does once its registers are given out. The printed registers are those
-- that the temps have at the end, so all goes well as long as no temp has had another one.
import Nehcpu.Decaf.LivenessOk
import Nehcpu.Decaf.RegAlloc

open Function

namespace nehcpu.decaf

namespace AllocState

variable {k : Nat}

/-! ## The state -/

/-- A register is held by the temp that it names. -/
def Back (s : AllocState k) : Prop := ∀ r t, s.var r = some t → s.reg t = some r

/-- Every slot has one temp, and the counter has passed all of them. -/
structure Placed (s : AllocState k) : Prop where
  below : ∀ t o, s.offset t = some o → s.localOffset < o
  inj : ∀ t t' o, s.offset t = some o → s.offset t' = some o → t = t'

/-- No slot is lost. -/
def Grows (s s' : AllocState k) : Prop := ∀ t o, s.offset t = some o → s'.offset t = some o

theorem Grows.refl (s : AllocState k) : s.Grows s := fun _ _ h => h

theorem Grows.trans {s s' s'' : AllocState k} (h : s.Grows s') (h' : s'.Grows s'') :
    s.Grows s'' := fun t o ht => h' t o (h t o ht)

theorem back_clear (s : AllocState k) : s.clear.Back := by
  intro r t h
  cases h

theorem inReg_iff {s : AllocState k} (hb : s.Back) {t : Temp} :
    s.inReg t = true ↔ ∃ r, s.var r = some t := by
  unfold inReg
  constructor
  · intro h
    split at h
    · cases h
    · next r hr => exact ⟨r, of_decide_eq_true h⟩
  · rintro ⟨r, hr⟩
    simp [hb r t hr, hr]

section

variable (s : AllocState k) (t : Temp)

@[simp] theorem findSlot_var : (s.findSlot t).var = s.var := by
  unfold findSlot
  split <;> rfl

@[simp] theorem findSlot_reg : (s.findSlot t).reg = s.reg := by
  unfold findSlot
  split <;> rfl

theorem findSlot_offset : (s.findSlot t).offset t = some ((s.findSlot t).slot t) := by
  unfold slot findSlot
  split
  · next o h => simp [h]
  · simp

theorem findSlot_grows : s.Grows (s.findSlot t) := by
  intro x o hx
  unfold findSlot
  split
  · exact hx
  · next h =>
    have hne : x ≠ t := by
      rintro rfl
      rw [h] at hx
      cases hx
    simp [hne, hx]

variable {s} in
theorem Placed.findSlot (h : s.Placed) : (s.findSlot t).Placed := by
  unfold AllocState.findSlot
  split
  · exact h
  · constructor
    · intro x o hx
      by_cases hxt : x = t
      · subst hxt
        simp only [update_self, Option.some.injEq] at hx
        dsimp only
        omega
      · simp only [ne_eq, hxt, not_false_eq_true, update_of_ne] at hx
        have := h.below x o hx
        dsimp only
        omega
    · intro x y o hx hy
      by_cases hxt : x = t <;> by_cases hyt : y = t
      · rw [hxt, hyt]
      · subst hxt
        simp only [update_self, Option.some.injEq, ne_eq, hyt, not_false_eq_true,
          update_of_ne] at hx hy
        have := h.below y o hy
        omega
      · subst hyt
        simp only [update_self, Option.some.injEq, ne_eq, hxt, not_false_eq_true,
          update_of_ne] at hx hy
        have := h.below x o hx
        omega
      · simp only [ne_eq, hxt, hyt, not_false_eq_true, update_of_ne] at hx hy
        exact h.inj x y o hx hy

end

/-! ## findReg -/

/-- The register that `findReg` picks. -/
def pick (s : AllocState k) (live : Finset Temp) : Fin (k + 1) :=
  match s.free live with
  | some r => r
  | none =>
    match s.fixed with
    | some r => r
    | none => s.random 0

/-- What `findReg` does when the temp is in no register: the register is bound to it, what was
there is dead or spilled, and what is to be read is loaded. -/
structure Took (s s' : AllocState k) (r : Fin (k + 1)) (live : Finset Temp) (a : Access)
    (items : List Item) : Prop where
  var : s'.var = update s.var r (some a.temp)
  reg : s'.reg = update s.reg a.temp (some r)
  grows : s.Grows s'
  placed : s.Placed → s'.Placed
  slot : a.isRead = true → s'.offset a.temp = some (s'.slot a.temp)
  items : ∃ out, items = out ++ (if a.isRead then [.load a.temp (s'.slot a.temp)] else []) ∧
    ((out = [] ∧ ∀ x, s.var r = some x → x ∉ live) ∨
      ∃ x, s.var r = some x ∧ x ∈ live ∧ s'.offset x = some (s'.slot x) ∧
        out = [.spill x (s'.slot x)])

theorem take_took (s : AllocState k) (live : Finset Temp) {r : Fin (k + 1)} (a : Access)
    (hr : ∀ x, s.var r = some x → x ∉ live) :
    Took s (s.take r a.temp a.isRead).1 r live a (s.take r a.temp a.isRead).2 := by
  unfold take
  cases a with
  | read t =>
    refine ⟨(s.bind r t).findSlot_var t, (s.bind r t).findSlot_reg t,
      (s.bind r t).findSlot_grows t, ?_, ?_, [], rfl, ?_⟩
    · intro h
      exact Placed.findSlot t (s := s.bind r t) ⟨h.below, h.inj⟩
    · intro _
      exact (s.bind r t).findSlot_offset t
    · exact Or.inl ⟨rfl, hr⟩
  | write t =>
    refine ⟨rfl, rfl, Grows.refl s, fun h => ⟨h.below, h.inj⟩, ?_, [], rfl, Or.inl ⟨rfl, hr⟩⟩
    intro h
    cases h

theorem slot_of_grows {s s' : AllocState k} (h : s.Grows s') {t : Temp}
    (ht : s.offset t = some (s.slot t)) : s'.offset t = some (s'.slot t) ∧ s'.slot t = s.slot t := by
  have h' := h t _ ht
  simp [slot, h']

theorem evict_took (s : AllocState k) (live : Finset Temp) {r : Fin (k + 1)} (a : Access)
    (hr : ∀ x, s.var r = some x → x ∈ live) :
    Took s (s.evict r a.temp a.isRead).1 r live a (s.evict r a.temp a.isRead).2 := by
  unfold evict
  cases hx : s.var r with
  | none =>
    apply take_took
    intro x hx'
    rw [hx] at hx'
    cases hx'
  | some x =>
    have h := take_took (s.findSlot x) ∅ (r := r) a fun y _ => Finset.notMem_empty y
    obtain ⟨out, hitems, hout⟩ := h.items
    obtain ⟨hslot, heq⟩ := slot_of_grows h.grows (s.findSlot_offset x)
    refine ⟨by simpa using h.var, by simpa using h.reg, (s.findSlot_grows x).trans h.grows,
      fun hp => h.placed (hp.findSlot x), h.slot, ?_⟩
    refine ⟨[.spill x ((s.findSlot x).slot x)], ?_, Or.inr ⟨x, hx, hr x hx, hslot, by rw [heq]⟩⟩
    -- the state that `take` begins with spills nothing of its own
    dsimp only
    congr 1
    unfold take
    cases a <;> rfl

theorem findReg_cases (s : AllocState k) (live : Finset Temp) (a : Access) :
    (s.inReg a.temp = true ∧ s.findReg live a = (s, [])) ∨
      (s.inReg a.temp = false ∧
        Took s (s.findReg live a).1 (s.pick live) live a (s.findReg live a).2) := by
  cases hin : s.inReg a.temp with
  | true => exact Or.inl ⟨rfl, if_pos hin⟩
  | false =>
    right
    refine ⟨rfl, ?_⟩
    simp only [findReg, hin, Bool.false_eq_true, if_false, pick]
    cases hf : s.free live with
    | some r =>
      apply take_took
      intro x hx
      have h := List.find?_some hf
      simpa [hx] using h
    | none =>
      have hlive : ∀ r x, s.var r = some x → x ∈ live := by
        intro r x hx
        have h := List.find?_eq_none.1 hf r (List.mem_finRange r)
        simpa [hx] using h
      dsimp only
      cases hx : s.fixed with
      | some r => exact evict_took s live a (hlive r)
      | none =>
        have h := evict_took { s with random := fun i => s.random (i + 1) } live
          (r := s.random 0) a (hlive _)
        exact ⟨h.var, h.reg, h.grows, fun hp => h.placed ⟨hp.below, hp.inj⟩, h.slot, h.items⟩

theorem Took.back {s s' : AllocState k} {r : Fin (k + 1)} {live : Finset Temp} {a : Access}
    {items : List Item} (h : Took s s' r live a items) (hb : s.Back)
    (hn : s.inReg a.temp = false) : s'.Back := by
  intro r' x hx
  rw [h.var] at hx
  rw [h.reg]
  by_cases hr : r' = r
  · subst hr
    simp only [update_self, Option.some.injEq] at hx
    subst hx
    simp
  · rw [update_of_ne hr] at hx
    have hne : x ≠ a.temp := by
      rintro rfl
      rw [(inReg_iff hb).2 ⟨r', hx⟩] at hn
      cases hn
    rw [update_of_ne hne]
    exact hb r' x hx

theorem back_findReg {s : AllocState k} (hb : s.Back) (live : Finset Temp) (a : Access) :
    (s.findReg live a).1.Back := by
  obtain ⟨-, h⟩ | ⟨hn, h⟩ := s.findReg_cases live a
  · rw [h]
    exact hb
  · exact h.back hb hn

theorem findReg_grows (s : AllocState k) (live : Finset Temp) (a : Access) :
    s.Grows (s.findReg live a).1 := by
  obtain ⟨-, h⟩ | ⟨-, h⟩ := s.findReg_cases live a
  · rw [h]
    exact Grows.refl s
  · exact h.grows

theorem Placed.findReg {s : AllocState k} (hp : s.Placed) (live : Finset Temp) (a : Access) :
    (s.findReg live a).1.Placed := by
  obtain ⟨-, h⟩ | ⟨-, h⟩ := s.findReg_cases live a
  · rw [h]
    exact hp
  · exact h.placed hp

/-- The temp that a register was asked for is in one afterwards. -/
theorem findReg_inReg {s : AllocState k} (hb : s.Back) (live : Finset Temp) (a : Access) :
    ∃ r, (s.findReg live a).1.var r = some a.temp := by
  obtain ⟨hin, h⟩ | ⟨-, h⟩ := s.findReg_cases live a
  · rw [h]
    exact (inReg_iff hb).1 hin
  · exact ⟨s.pick live, by simp [h.var]⟩

/-! ## The other loops -/

@[simp] theorem findRegs_nil (s : AllocState k) (live : Finset Temp) :
    s.findRegs live [] = (s, []) := rfl

theorem findRegs_cons (s : AllocState k) (live : Finset Temp) (a : Access) (as : List Access) :
    s.findRegs live (a :: as) =
      (((s.findReg live a).1.findRegs live as).1,
        (s.findReg live a).2 ++ ((s.findReg live a).1.findRegs live as).2) := rfl

theorem findRegs_append (s : AllocState k) (live : Finset Temp) (as bs : List Access) :
    s.findRegs live (as ++ bs) =
      (((s.findRegs live as).1.findRegs live bs).1,
        (s.findRegs live as).2 ++ ((s.findRegs live as).1.findRegs live bs).2) := by
  induction as generalizing s with
  | nil => rfl
  | cons a as ih => simp [findRegs_cons, ih]

theorem findRegs_keeps (s : AllocState k) (live : Finset Temp) (as : List Access) :
    (s.Back → (s.findRegs live as).1.Back) ∧ s.Grows (s.findRegs live as).1 ∧
      (s.Placed → (s.findRegs live as).1.Placed) := by
  induction as generalizing s with
  | nil => exact ⟨id, Grows.refl s, id⟩
  | cons a as ih =>
    obtain ⟨h1, h2, h3⟩ := ih (s.findReg live a).1
    exact ⟨fun h => h1 (back_findReg h live a), (s.findReg_grows live a).trans h2,
      fun h => h3 (h.findReg live a)⟩

/-- The loops that fill `saves` give slots to what is in registers, and nothing else. -/
theorem findSaves_spec (s : AllocState k) (skip : Option Temp) (ts : List Temp) :
    (s.findSaves skip ts).1.var = s.var ∧ (s.findSaves skip ts).1.reg = s.reg ∧
      s.Grows (s.findSaves skip ts).1 ∧ (s.Placed → (s.findSaves skip ts).1.Placed) ∧
      (∀ t, t ∈ (s.findSaves skip ts).2 ↔ t ∈ ts ∧ s.inReg t = true ∧ skip ≠ some t) ∧
      ∀ t ∈ (s.findSaves skip ts).2, ((s.findSaves skip ts).1.offset t).isSome = true := by
  induction ts generalizing s with
  | nil => exact ⟨rfl, rfl, Grows.refl s, id, by simp [findSaves], by simp [findSaves]⟩
  | cons x ts ih =>
    unfold findSaves
    split
    · next hx =>
      obtain ⟨hv, hr, hg, hp, hmem, hsome⟩ := ih (s.findSlot x)
      have hin : ∀ t, (s.findSlot x).inReg t = s.inReg t := by
        intro t
        simp [inReg]
      refine ⟨by simpa using hv, by simpa using hr, (s.findSlot_grows x).trans hg,
        fun h => hp (h.findSlot x), ?_, ?_⟩
      · intro t
        rw [List.mem_cons, List.mem_cons, hmem, hin]
        constructor
        · rintro (rfl | ⟨h1, h2⟩)
          · exact ⟨Or.inl rfl, hx⟩
          · exact ⟨Or.inr h1, h2⟩
        · rintro ⟨rfl | h1, h2⟩
          · exact Or.inl rfl
          · exact Or.inr ⟨h1, h2⟩
      · intro t ht
        obtain rfl | ht := List.mem_cons.1 ht
        · exact Option.isSome_iff_exists.2 ⟨_, hg _ _ (s.findSlot_offset t)⟩
        · exact hsome t ht
    · next hx =>
      obtain ⟨hv, hr, hg, hp, hmem, hsome⟩ := ih s
      refine ⟨hv, hr, hg, hp, ?_, hsome⟩
      intro t
      rw [hmem, List.mem_cons]
      constructor
      · rintro ⟨h1, h2⟩
        exact ⟨Or.inr h1, h2⟩
      · rintro ⟨rfl | h1, h2⟩
        · exact absurd h2 hx
        · exact ⟨h1, h2⟩

end AllocState

/-- The calls, which save what is live over them. -/
def Tac.isCall : Tac → Bool
  | .indirectCall _ _ | .directCall _ _ => true
  | _ => false

namespace AllocState

variable {k : Nat}

/-- What is done when the registers of an instruction are found: a call saves what is live over
it. -/
structure Finished (s s' : AllocState k) (x : LiveTac) (saves : List Temp) : Prop where
  var : s'.var = s.var
  reg : s'.reg = s.reg
  grows : s.Grows s'
  placed : s.Placed → s'.Placed
  saved : x.node.tac.isCall = true →
    ∀ t, t ∈ saves ↔ t ∈ x.liveOut ∧ s.inReg t = true ∧ x.node.tac.defines ≠ some t
  slots : ∀ t ∈ saves, (s'.offset t).isSome = true

theorem finished_call (s : AllocState k) (x : LiveTac) :
    Finished s ({ s with currentActualSize := 4 }.findSaves x.node.tac.defines x.liveOut).1 x
      ({ s with currentActualSize := 4 }.findSaves x.node.tac.defines x.liveOut).2 := by
  obtain ⟨hv, hr, hg, hp, hmem, hsome⟩ :=
    findSaves_spec { s with currentActualSize := 4 } x.node.tac.defines x.liveOut
  exact ⟨hv, hr, hg, fun h => hp ⟨h.below, h.inj⟩, fun _ t => hmem t, hsome⟩

theorem finished_other {s : AllocState k} {x : LiveTac} (h : x.node.tac.isCall = false)
    (size : Int) : Finished s { s with currentActualSize := size } x [] := by
  refine ⟨rfl, rfl, Grows.refl s, fun hp => ⟨hp.below, hp.inj⟩, ?_, by simp⟩
  intro hc
  rw [h] at hc
  cases hc

/-- One turn of the loop: the instruction follows what was put in front of it. -/
theorem allocTac_cases (s : AllocState k) (live : Finset Temp) (x : LiveTac) :
    ∃ actual saves, (s.allocTac live x).2 =
        (s.findRegs live x.node.tac.accesses).2 ++ [.tac x actual saves] ∧
      Finished (s.findRegs live x.node.tac.accesses).1 (s.allocTac live x).1 x saves := by
  have hcall := finished_call (s.findRegs live x.node.tac.accesses).1 x
  have hother := @finished_other _ (s.findRegs live x.node.tac.accesses).1 x
  unfold allocTac
  cases ht : x.node.tac with
  | indirectCall op0 op1 =>
    rw [ht] at hcall
    exact ⟨0, _, rfl, hcall⟩
  | directCall op0 label =>
    rw [ht] at hcall
    exact ⟨0, _, rfl, hcall⟩
  | parm op0 =>
    rw [ht] at hother
    exact ⟨_, [], rfl, hother rfl _⟩
  | _ =>
    rw [ht] at hother
    exact ⟨0, [], rfl, hother rfl _⟩

/-! ## Steady allocation -/

/-- A temp that is in no register, and has been asked for in the block before, gets the register
that it had; and a temp that is read does not take the register of one that the same instruction
reads too. -/
def SteadyAccess (s : AllocState k) (live : Finset Temp) (seen claimed : List Temp)
    (a : Access) : Prop :=
  s.inReg a.temp = true ∨
    ((a.temp ∈ seen → s.reg a.temp = some (s.pick live)) ∧
      (a.isRead = true → ∀ x ∈ claimed, s.var (s.pick live) ≠ some x))

instance (s : AllocState k) (live : Finset Temp) (seen claimed : List Temp) (a : Access) :
    Decidable (s.SteadyAccess live seen claimed a) :=
  inferInstanceAs (Decidable (_ ∨ _))

/-- The accesses of an instruction are steady. -/
def SteadyRegs (s : AllocState k) (live : Finset Temp) (seen claimed : List Temp) :
    List Access → Prop
  | [] => True
  | a :: as =>
    s.SteadyAccess live seen claimed a ∧
      (s.findReg live a).1.SteadyRegs live (a.temp :: seen)
        (if a.isRead then a.temp :: claimed else claimed) as

instance SteadyRegs.decidable (live : Finset Temp) : ∀ (s : AllocState k) (seen claimed : List Temp)
    (as : List Access), Decidable (s.SteadyRegs live seen claimed as)
  | _, _, _, [] => isTrue trivial
  | s, seen, claimed, a :: as => @instDecidableAnd _ _ _
    (SteadyRegs.decidable live (s.findReg live a).1 (a.temp :: seen)
      (if a.isRead then a.temp :: claimed else claimed) as)

/-- What has been asked for, the newest first. -/
def asked (seen : List Temp) (as : List Access) : List Temp := (as.map Access.temp).reverse ++ seen

/-- The accesses of all instructions are. -/
def SteadyTacs (s : AllocState k) (live : Finset Temp) (seen : List Temp) : List LiveTac → Prop
  | [] => True
  | x :: xs =>
    s.SteadyRegs live seen [] x.node.tac.accesses ∧
      (s.allocTac live x).1.SteadyTacs x.liveOut.toFinset (asked seen x.node.tac.accesses) xs

instance SteadyTacs.decidable : ∀ (s : AllocState k) (live : Finset Temp) (seen : List Temp)
    (xs : List LiveTac), Decidable (s.SteadyTacs live seen xs)
  | _, _, _, [] => isTrue trivial
  | s, live, seen, x :: xs => @instDecidableAnd _ _ _
    (SteadyTacs.decidable (s.allocTac live x).1 x.liveOut.toFinset
      (asked seen x.node.tac.accesses) xs)

/-- What the block asks for. -/
def askedBy (xs : List LiveTac) (seen : List Temp) : List Temp :=
  xs.foldl (fun seen x => asked seen x.node.tac.accesses) seen

/-- The state at the end of the loop. -/
def looped (s : AllocState k) (a : AllocBlock) : AllocState k :=
  (s.clear.allocTacs a.liveIn a.tacs).1

/-- The allocation of a block is steady: in its loop, and when the variable that is read at the
end of the block is loaded again. -/
def Steady (s : AllocState k) (a : AllocBlock) : Prop :=
  s.clear.SteadyTacs a.liveIn [] a.tacs ∧
    ∀ v ∈ a.reads, (s.looped a).inReg v = true ∨
      (v ∈ askedBy a.tacs [] → (s.looped a).reg v = some firstReg)

instance (s : AllocState k) (a : AllocBlock) : Decidable (s.Steady a) :=
  inferInstanceAs (Decidable (_ ∧ _))

theorem mem_asked {seen : List Temp} {as : List Access} {t : Temp} (h : t ∈ seen) :
    t ∈ asked seen as := List.mem_append_right _ h

theorem asked_cons (seen : List Temp) (a : Access) (as : List Access) :
    asked seen (a :: as) = asked (a.temp :: seen) as := by
  simp [asked]

/-- In a steady allocation a temp keeps the register that it has had. -/
theorem SteadyAccess.reg {s : AllocState k} {live : Finset Temp} {seen claimed : List Temp}
    {a : Access} (h : s.SteadyAccess live seen claimed a) {t : Temp} (ht : t ∈ seen) :
    (s.findReg live a).1.reg t = s.reg t := by
  obtain ⟨-, heq⟩ | ⟨hn, htook⟩ := s.findReg_cases live a
  · rw [heq]
  · rw [htook.reg]
    obtain hin | ⟨hold, -⟩ := h
    · rw [hin] at hn
      cases hn
    · by_cases hta : t = a.temp
      · subst hta
        rw [update_self, hold ht]
      · rw [update_of_ne hta]

theorem SteadyRegs.reg {s : AllocState k} {live : Finset Temp} {seen claimed : List Temp}
    {as : List Access} (h : s.SteadyRegs live seen claimed as) {t : Temp} (ht : t ∈ seen) :
    (s.findRegs live as).1.reg t = s.reg t := by
  induction as generalizing s seen claimed with
  | nil => rfl
  | cons a as ih =>
    rw [findRegs_cons]
    exact (ih h.2 (List.mem_cons_of_mem _ ht)).trans (h.1.reg ht)

theorem steadyRegs_append {s : AllocState k} {live : Finset Temp} {seen claimed : List Temp}
    {as bs : List Access} (h : s.SteadyRegs live seen claimed (as ++ bs)) :
    s.SteadyRegs live seen claimed as ∧
      ∃ claimed', (s.findRegs live as).1.SteadyRegs live (asked seen as) claimed' bs := by
  induction as generalizing s seen claimed with
  | nil => exact ⟨trivial, claimed, h⟩
  | cons a as ih =>
    obtain ⟨h1, claimed', h2⟩ := ih h.2
    rw [asked_cons]
    exact ⟨⟨h.1, h1⟩, claimed', h2⟩

theorem SteadyTacs.reg {s : AllocState k} {live : Finset Temp} {seen : List Temp}
    {xs : List LiveTac} (h : s.SteadyTacs live seen xs) {t : Temp} (ht : t ∈ seen) :
    (s.allocTacs live xs).1.reg t = s.reg t := by
  induction xs generalizing s live seen with
  | nil => rfl
  | cons x xs ih =>
    obtain ⟨_, _, -, hfin⟩ := s.allocTac_cases live x
    have hrest := ih h.2 (mem_asked ht)
    rw [hfin.reg, h.1.reg ht] at hrest
    exact hrest

theorem allocTacs_cons (s : AllocState k) (live : Finset Temp) (x : LiveTac) (xs : List LiveTac) :
    s.allocTacs live (x :: xs) =
      (((s.allocTac live x).1.allocTacs x.liveOut.toFinset xs).1,
        (s.allocTac live x).2 ++ ((s.allocTac live x).1.allocTacs x.liveOut.toFinset xs).2) := rfl

theorem allocTac_keeps (s : AllocState k) (live : Finset Temp) (x : LiveTac) :
    (s.Back → (s.allocTac live x).1.Back) ∧ s.Grows (s.allocTac live x).1 ∧
      (s.Placed → (s.allocTac live x).1.Placed) := by
  obtain ⟨h1, h2, h3⟩ := s.findRegs_keeps live x.node.tac.accesses
  obtain ⟨_, _, -, hfin⟩ := s.allocTac_cases live x
  refine ⟨?_, h2.trans hfin.grows, fun h => hfin.placed (h3 h)⟩
  intro hb r t ht
  rw [hfin.var] at ht
  rw [hfin.reg]
  exact h1 hb r t ht

theorem allocTacs_keeps (s : AllocState k) (live : Finset Temp) (xs : List LiveTac) :
    (s.Back → (s.allocTacs live xs).1.Back) ∧ s.Grows (s.allocTacs live xs).1 ∧
      (s.Placed → (s.allocTacs live xs).1.Placed) := by
  induction xs generalizing s live with
  | nil => exact ⟨id, Grows.refl s, id⟩
  | cons x xs ih =>
    obtain ⟨h1, h2, h3⟩ := s.allocTac_keeps live x
    obtain ⟨h1', h2', h3'⟩ := ih (s.allocTac live x).1 x.liveOut.toFinset
    exact ⟨fun h => h1' (h1 h), h2.trans h2', fun h => h3' (h3 h)⟩

/-- Only what has been asked for is in a register. -/
def Known (s : AllocState k) (seen : List Temp) : Prop := ∀ r t, s.var r = some t → t ∈ seen

theorem Known.findReg {s : AllocState k} {seen : List Temp} (h : s.Known seen)
    (live : Finset Temp) (a : Access) : (s.findReg live a).1.Known (a.temp :: seen) := by
  intro r t ht
  obtain ⟨-, heq⟩ | ⟨-, htook⟩ := s.findReg_cases live a
  · rw [heq] at ht
    exact List.mem_cons_of_mem _ (h r t ht)
  · rw [htook.var] at ht
    by_cases hr : r = s.pick live
    · subst hr
      simp only [update_self, Option.some.injEq] at ht
      exact ht ▸ List.mem_cons_self
    · rw [update_of_ne hr] at ht
      exact List.mem_cons_of_mem _ (h r t ht)

theorem Known.findRegs {s : AllocState k} {seen : List Temp} (h : s.Known seen)
    (live : Finset Temp) (as : List Access) : (s.findRegs live as).1.Known (asked seen as) := by
  induction as generalizing s seen with
  | nil => exact h
  | cons a as ih =>
    rw [asked_cons]
    exact ih (h.findReg live a)

theorem Known.allocTac {s : AllocState k} {seen : List Temp} (h : s.Known seen)
    (live : Finset Temp) (x : LiveTac) :
    (s.allocTac live x).1.Known (asked seen x.node.tac.accesses) := by
  obtain ⟨_, _, -, hfin⟩ := s.allocTac_cases live x
  intro r t ht
  rw [hfin.var] at ht
  exact h.findRegs live _ r t ht

end AllocState

/-! ## Running the code -/

section

variable {k : Nat} {V W : Type} (M : Meaning V W) (left : W → Fin (k + 1) → V)

/-- The code of some instructions, with the registers and slots that are printed. -/
def asmOf (R : Temp → Option (Fin (k + 1))) (F : Temp → Option Int) (items : List Item) :
    List (Asm k) :=
  items.flatMap (genAsm (fun t => (R t).getD firstReg) fun t => (F t).getD 0)

theorem runCode_append (m : MipsMachine k V W) (c c' : List (Asm k)) :
    runCode M left m (c ++ c') = runCode M left (runCode M left m c) c' :=
  List.foldl_append

theorem asmOf_append (R : Temp → Option (Fin (k + 1))) (F : Temp → Option Int)
    (is js : List Item) : asmOf R F (is ++ js) = asmOf R F is ++ asmOf R F js :=
  List.flatMap_append

/-- The machine holds the values of the temps in `L`: those that are in registers there, and the
others in their slots. -/
structure Holds (s : AllocState k) (F : Temp → Option Int) (L : Temp → Prop) (m : MipsMachine k V W)
    (e : Values V W) : Prop where
  inReg : ∀ r t, s.var r = some t → L t → m.regs r = e.env t
  inSlot : ∀ t o, L t → (∀ r, s.var r ≠ some t) → F t = some o → m.frame o = e.env t
  world : m.world = e.world

variable {M left} {s s' : AllocState k} {F : Temp → Option Int} {L L' : Temp → Prop}
  {m : MipsMachine k V W} {e : Values V W}

theorem Holds.mono (h : Holds s F L m e) (hL : ∀ t, L' t → L t) : Holds s F L' m e :=
  ⟨fun r t ht hl => h.inReg r t ht (hL t hl), fun t o hl => h.inSlot t o (hL t hl), h.world⟩

theorem Holds.congr (h : Holds s F L m e) (hv : s'.var = s.var) : Holds s' F L m e := by
  obtain ⟨h1, h2, h3⟩ := h
  rw [← hv] at h1 h2
  exact ⟨h1, h2, h3⟩

/-- A store of what a register holds into the slot of its temp. -/
theorem Holds.spill (h : Holds s F L m e) (hinj : ∀ t t' o, F t = some o → F t' = some o → t = t')
    {r : Fin (k + 1)} {x : Temp} {o : Int} (hx : s.var r = some x) (ho : F x = some o) :
    Holds s F L { m with frame := update m.frame o (m.regs r) } e := by
  refine ⟨h.inReg, ?_, h.world⟩
  intro t o' hl hn ht
  have hne : o' ≠ o := by
    rintro rfl
    exact hn r (hinj t x o' ht ho ▸ hx)
  dsimp only
  rw [update_of_ne hne]
  exact h.inSlot t o' hl hn ht

/-- A register is bound to a temp whose value is not there yet. What was there has its slot. -/
theorem Holds.bind (h : Holds s F L m e) {r : Fin (k + 1)} {t : Temp}
    (hv : s'.var = update s.var r (some t))
    (hslot : ∀ x o, s.var r = some x → L x → F x = some o → m.frame o = e.env x) :
    Holds s' F (fun x => L x ∧ x ≠ t) m e := by
  refine ⟨?_, ?_, h.world⟩
  · rintro r' x hx ⟨hl, hne⟩
    rw [hv] at hx
    by_cases hr : r' = r
    · subst hr
      simp only [update_self, Option.some.injEq] at hx
      exact absurd hx.symm hne
    · rw [update_of_ne hr] at hx
      exact h.inReg r' x hx hl
  · rintro x o ⟨hl, hne⟩ hn ho
    by_cases hx : s.var r = some x
    · exact hslot x o hx hl ho
    · refine h.inSlot x o hl ?_ ho
      intro r' hr'
      have hrr : r' ≠ r := by
        rintro rfl
        exact hx hr'
      apply hn r'
      rw [hv, update_of_ne hrr]
      exact hr'

/-- A register gets the value of its temp. -/
theorem Holds.set {r : Fin (k + 1)} {t : Temp} (h : Holds s F (fun x => L x ∧ x ≠ t) m e)
    (hb : s.Back) (ht : s.var r = some t) (v : V) :
    Holds s F L { m with regs := update m.regs r v } (e.set t v) := by
  refine ⟨?_, ?_, h.world⟩
  · intro r' x hx hl
    by_cases hr : r' = r
    · subst hr
      rw [ht, Option.some.injEq] at hx
      subst hx
      simp [Values.set]
    · have hne : x ≠ t := by
        rintro rfl
        have := (hb r' x hx).symm.trans (hb r x ht)
        exact hr (Option.some_inj.1 this)
      simp only [Values.set, update_of_ne hr, update_of_ne hne]
      exact h.inReg r' x hx ⟨hl, hne⟩
  · intro x o hl hn ho
    have hne : x ≠ t := by
      rintro rfl
      exact hn r ht
    simp only [Values.set, update_of_ne hne]
    exact h.inSlot x o ⟨hl, hne⟩ hn ho

/-- A register gets the value that its temp has. -/
theorem Holds.load {r : Fin (k + 1)} {t : Temp} (h : Holds s F (fun x => L x ∧ x ≠ t) m e)
    (hb : s.Back) (ht : s.var r = some t) :
    Holds s F L { m with regs := update m.regs r (e.env t) } e := by
  have h' := h.set hb ht (e.env t)
  have he : e.set t (e.env t) = e := by simp [Values.set]
  rwa [he] at h'

end

/-! ## What is to hold -/

/-- The temps that an instruction is printed to read. -/
def Item.uses : Item → List Temp
  | .tac x _ _ => x.node.tac.uses
  | .spill t _ => [t]
  | .load _ _ => []

/-- The temps that are live behind an instruction of the block. -/
def Item.liveOut : Item → List Temp
  | .tac x _ _ => x.liveOut
  | .spill _ _ | .load _ _ => []

section

variable {k : Nat} {V W : Type} (M : Meaning V W) (left : W → Fin (k + 1) → V)
  (R : Temp → Option (Fin (k + 1))) (F : Temp → Option Int)

/-- Each instruction reads the values of its operands from the registers that are printed, and
what is live behind it is in its register or in its slot. -/
def CodeRight : MipsMachine k V W → Values V W → List Item → Prop
  | _, _, [] => True
  | m, e, i :: is =>
    (∀ t ∈ i.uses, m.regs ((R t).getD firstReg) = e.env t) ∧
      (∀ t ∈ i.liveOut,
        (runCode M left m (asmOf R F [i])).regs ((R t).getD firstReg) = (evalItem M e i).env t ∨
          ∀ o, F t = some o → (runCode M left m (asmOf R F [i])).frame o = (evalItem M e i).env t) ∧
      CodeRight (runCode M left m (asmOf R F [i])) (evalItem M e i) is

variable {M left R F}

theorem codeRight_append {m : MipsMachine k V W} {e : Values V W} {is js : List Item} :
    CodeRight M left R F m e (is ++ js) ↔ CodeRight M left R F m e is ∧
      CodeRight M left R F (runCode M left m (asmOf R F is)) (is.foldl (evalItem M) e) js := by
  induction is generalizing m e with
  | nil => simp [CodeRight, asmOf, runCode]
  | cons i is ih =>
    have hrun : runCode M left m (asmOf R F (i :: is)) =
        runCode M left (runCode M left m (asmOf R F [i])) (asmOf R F is) := by
      rw [← runCode_append, ← asmOf_append]
      rfl
    rw [List.cons_append, CodeRight, CodeRight, ih, hrun, List.foldl_cons]
    exact and_assoc.symm.trans (by simp only [and_assoc])

variable {s : AllocState k} {L : Temp → Prop} {m : MipsMachine k V W} {e : Values V W}
  {live : Finset Temp} {seen claimed : List Temp}

variable (M left R F) in
/-- The instructions that `findReg` puts in keep the values where they belong. -/
theorem findReg_holds {a : Access} (hb : s.Back) (hk : s.Known seen)
    (hst : s.SteadyAccess live seen claimed a)
    (hR : ∀ t ∈ a.temp :: seen, R t = (s.findReg live a).1.reg t)
    (hF : ∀ t o, (s.findReg live a).1.offset t = some o → F t = some o)
    (hinj : ∀ t t' o, F t = some o → F t' = some o → t = t')
    (hlive : ∀ t, L t → t ∈ live) (hexact : ∀ r x, s.var r = some x → x ∈ live → L x)
    (hread : a.isRead = true → L a.temp) (h : Holds s F L m e) :
    CodeRight M left R F m e (s.findReg live a).2 ∧
      (s.findReg live a).2.foldl (evalItem M) e = e ∧
      Holds (s.findReg live a).1 F (fun t => L t ∧ (a.isRead = true ∨ t ≠ a.temp))
        (runCode M left m (asmOf R F (s.findReg live a).2)) e ∧
      (a.isRead = false → (runCode M left m (asmOf R F (s.findReg live a).2)).regs = m.regs) := by
  obtain ⟨hin, heq⟩ | ⟨hn, htook⟩ := s.findReg_cases live a
  · rw [heq]
    exact ⟨trivial, rfl, h.mono fun t ht => ht.1, fun _ => rfl⟩
  · obtain ⟨out, hitems, hout⟩ := htook.items
    have hseen : ∀ {r x}, s.var r = some x → R x = some r := by
      intro r x hx
      have hmem := hk r x hx
      rw [hR x (List.mem_cons_of_mem _ hmem), hst.reg hmem]
      exact hb r x hx
    -- what was in the register is in its slot
    obtain ⟨m1, hm1, hright, heval, hregs, hholds, hslot⟩ :
        ∃ m1, runCode M left m (asmOf R F out) = m1 ∧ CodeRight M left R F m e out ∧
          out.foldl (evalItem M) e = e ∧ m1.regs = m.regs ∧ Holds s F L m1 e ∧
          ∀ x o, s.var (s.pick live) = some x → L x → F x = some o → m1.frame o = e.env x := by
      obtain ⟨rfl, hdead⟩ | ⟨x, hx, hxl, ho, rfl⟩ := hout
      · exact ⟨m, rfl, trivial, rfl, rfl, h, fun x o hx hl _ => absurd (hlive x hl) (hdead x hx)⟩
      · have hval := h.inReg _ x hx (hexact _ x hx hxl)
        have hreg : (R x).getD 0 = s.pick live := by rw [hseen hx, Option.getD_some]
        refine ⟨{ m with frame := update m.frame _ (m.regs (s.pick live)) }, ?_, ?_, rfl, rfl,
          h.spill hinj hx (hF x _ ho), ?_⟩
        · simp only [asmOf, List.flatMap_cons, List.flatMap_nil, genAsm, hreg]
          rfl
        · refine ⟨?_, by simp [Item.liveOut], trivial⟩
          intro t ht
          obtain rfl := List.mem_singleton.1 ht
          rw [hreg, hval]
        · intro y o hy _ hyo
          obtain rfl := Option.some_inj.1 (hx.symm.trans hy)
          obtain rfl := Option.some_inj.1 ((hF x _ ho).symm.trans hyo)
          simp [hval]
    have hbound := hholds.bind htook.var hslot
    have hvar : (s.findReg live a).1.var (s.pick live) = some a.temp := by simp [htook.var]
    rw [hitems, asmOf_append, runCode_append, hm1, codeRight_append, hm1, List.foldl_append,
      heval]
    cases a with
    | write t =>
      refine ⟨⟨hright, trivial⟩, rfl, hbound.mono ?_, fun _ => hregs⟩
      rintro x ⟨hl, hx⟩
      exact ⟨hl, hx.resolve_left (by simp [Access.isRead])⟩
    | read t =>
      have hso := hF t _ (htook.slot rfl)
      have hreg : (R t).getD 0 = s.pick live := by
        rw [hR t List.mem_cons_self, htook.reg]
        simp [Access.temp]
      have hval := hholds.inSlot t _ (hread rfl)
        (fun r hr => Bool.false_ne_true (hn.symm.trans ((AllocState.inReg_iff hb).2 ⟨r, hr⟩))) hso
      have hrun : runCode M left m1
          (asmOf R F [.load t ((s.findReg live (.read t)).1.slot t)]) =
            { m1 with regs := update m1.regs (s.pick live) (e.env t) } := by
        simp only [asmOf, List.flatMap_cons, List.flatMap_nil, genAsm, hreg]
        rw [← hval]
        rfl
      refine ⟨⟨hright, by simp [Item.uses], by simp [Item.liveOut], trivial⟩, rfl, ?_, ?_⟩
      · simp only [Access.isRead, if_true, Access.temp, hrun]
        apply (hbound.load (htook.back hb hn) hvar).mono
        exact fun x hx => hx.1
      · intro hc
        cases hc

end

/-- The operands that `findReg` is called for to read, in that order. -/
def Tac.operands : Tac → List Temp
  | .store op0 op1 _ | .mult op0 op1 => [op1, op0]
  | t => t.uses

/-- The operands are found first, the result last. -/
theorem Tac.accesses_eq {tac : Tac} (hp : tac.isPlain = true) :
    tac.accesses = tac.operands.map .read ++ (tac.defines.map Access.write).toList := by
  cases tac <;> first | rfl | simp [isPlain, isJump, isMemo, isMark, marked?] at hp

theorem Tac.mem_operands {tac : Tac} {t : Temp} : t ∈ tac.operands ↔ t ∈ tac.uses := by
  cases tac <;> simp [operands, uses, or_comm]

section

variable {k : Nat} {V W : Type} {M : Meaning V W} {left : W → Fin (k + 1) → V}
  {R : Temp → Option (Fin (k + 1))} {F : Temp → Option Int} {s : AllocState k} {L : Temp → Prop}
  {m : MipsMachine k V W} {e : Values V W} {live : Finset Temp} {seen claimed : List Temp}

/-- A read that is steady leaves what has been claimed in its registers. -/
theorem claimed_findReg {a : Access} (hst : s.SteadyAccess live seen claimed a)
    (ha : a.isRead = true) (hb : s.Back) (hc : ∀ t ∈ claimed, ∃ r, s.var r = some t) :
    ∀ t ∈ a.temp :: claimed, ∃ r, (s.findReg live a).1.var r = some t := by
  intro t ht
  obtain rfl | ht := List.mem_cons.1 ht
  · exact AllocState.findReg_inReg hb live a
  · obtain ⟨r, hr⟩ := hc t ht
    obtain ⟨-, heq⟩ | ⟨hn, htook⟩ := s.findReg_cases live a
    · exact ⟨r, by rw [heq]; exact hr⟩
    · obtain hin | ⟨-, hkeep⟩ := hst
      · rw [hin] at hn
        cases hn
      · refine ⟨r, ?_⟩
        have hne : r ≠ s.pick live := by
          rintro rfl
          exact hkeep ha t ht hr
        rw [htook.var, update_of_ne hne]
        exact hr

variable (M left R F) in
/-- The operands of an instruction are found one by one. In the end all are in registers. -/
theorem findRegs_reads {ts : List Temp} (hb : s.Back) (hk : s.Known seen)
    (hst : s.SteadyRegs live seen claimed (ts.map .read))
    (hR : ∀ t ∈ AllocState.asked seen (ts.map .read),
      R t = (s.findRegs live (ts.map .read)).1.reg t)
    (hF : ∀ t o, (s.findRegs live (ts.map .read)).1.offset t = some o → F t = some o)
    (hinj : ∀ t t' o, F t = some o → F t' = some o → t = t')
    (hlive : ∀ t, L t → t ∈ live) (hexact : ∀ r x, s.var r = some x → x ∈ live → L x)
    (hread : ∀ t ∈ ts, L t) (hc : ∀ t ∈ claimed, ∃ r, s.var r = some t) (h : Holds s F L m e) :
    CodeRight M left R F m e (s.findRegs live (ts.map .read)).2 ∧
      (s.findRegs live (ts.map .read)).2.foldl (evalItem M) e = e ∧
      Holds (s.findRegs live (ts.map .read)).1 F L
        (runCode M left m (asmOf R F (s.findRegs live (ts.map .read)).2)) e ∧
      (∀ t, t ∈ ts ∨ t ∈ claimed → ∃ r, (s.findRegs live (ts.map .read)).1.var r = some t) ∧
      ∀ r x, (s.findRegs live (ts.map .read)).1.var r = some x → x ∈ live → L x := by
  induction ts generalizing s seen claimed m with
  | nil => exact ⟨trivial, rfl, h, fun t ht => hc t (by simpa using ht), hexact⟩
  | cons t ts ih =>
    obtain ⟨hst1, hst2⟩ := hst
    rw [List.map_cons, AllocState.asked_cons] at hR
    obtain ⟨-, hgrows, -⟩ := (s.findReg live (.read t)).1.findRegs_keeps live (ts.map .read)
    obtain ⟨hright, heval, hholds, -⟩ := findReg_holds M left R F
      hb hk hst1 (fun x hx => (hR x (AllocState.mem_asked hx)).trans (hst2.reg hx))
      (fun x o ho => hF x o (hgrows x o ho)) hinj hlive hexact (fun _ => hread t List.mem_cons_self) h
    have hexact' : ∀ r x, (s.findReg live (.read t)).1.var r = some x → x ∈ live → L x := by
      intro r x hx hxl
      obtain ⟨-, heq⟩ | ⟨-, htook⟩ := s.findReg_cases live (.read t)
      · rw [heq] at hx
        exact hexact r x hx hxl
      · rw [htook.var] at hx
        by_cases hr : r = s.pick live
        · subst hr
          simp only [update_self, Option.some.injEq] at hx
          exact hx ▸ hread t List.mem_cons_self
        · rw [update_of_ne hr] at hx
          exact hexact r x hx hxl
    obtain ⟨h1, h2, h3, h4, h5⟩ := ih (AllocState.back_findReg hb live _) (hk.findReg live _) hst2
      hR hF hexact' (fun x hx => hread x (List.mem_cons_of_mem t hx))
      (claimed_findReg hst1 rfl hb hc) (hholds.mono fun x hx => ⟨hx, Or.inl rfl⟩)
    rw [List.map_cons, AllocState.findRegs_cons, asmOf_append, runCode_append, codeRight_append,
      List.foldl_append, heval]
    refine ⟨⟨hright, h1⟩, h2, h3, ?_, h5⟩
    rintro x (hx | hx)
    · obtain rfl | hx := List.mem_cons.1 hx
      · exact h4 x (Or.inr List.mem_cons_self)
      · exact h4 x (Or.inl hx)
    · exact h4 x (Or.inr (List.mem_cons_of_mem _ hx))

variable (M left R F) in
/-- What `findRegs` puts in front of an instruction lets it read its operands, and gives its
result a register. -/
theorem findRegs_holds {tac : Tac} (hp : tac.isPlain = true) (hb : s.Back) (hk : s.Known seen)
    (hst : s.SteadyRegs live seen [] tac.accesses)
    (hR : ∀ t ∈ AllocState.asked seen tac.accesses, R t = (s.findRegs live tac.accesses).1.reg t)
    (hF : ∀ t o, (s.findRegs live tac.accesses).1.offset t = some o → F t = some o)
    (hinj : ∀ t t' o, F t = some o → F t' = some o → t = t')
    (hlive : ∀ t, L t → t ∈ live) (hexact : ∀ r x, s.var r = some x → x ∈ live → L x)
    (hread : ∀ t ∈ tac.uses, L t) (h : Holds s F L m e) :
    CodeRight M left R F m e (s.findRegs live tac.accesses).2 ∧
      (s.findRegs live tac.accesses).2.foldl (evalItem M) e = e ∧
      Holds (s.findRegs live tac.accesses).1 F (fun t => L t ∧ tac.defines ≠ some t)
        (runCode M left m (asmOf R F (s.findRegs live tac.accesses).2)) e ∧
      (∀ t ∈ tac.uses, (runCode M left m
        (asmOf R F (s.findRegs live tac.accesses).2)).regs ((R t).getD 0) = e.env t) ∧
      ∀ t, tac.defines = some t → ∃ r, (s.findRegs live tac.accesses).1.var r = some t := by
  rw [Tac.accesses_eq hp] at hst hR hF ⊢
  obtain ⟨hst1, claimed', hst2⟩ := AllocState.steadyRegs_append hst
  rw [AllocState.findRegs_append] at hR hF ⊢
  dsimp only at hR hF ⊢
  have hkeeps := AllocState.findRegs_keeps s live (tac.operands.map .read)
  have hgrows := (AllocState.findRegs_keeps (s.findRegs live (tac.operands.map .read)).1 live
    (tac.defines.map Access.write).toList).2.1
  have hR1 : ∀ t ∈ AllocState.asked seen (tac.operands.map .read),
      R t = (s.findRegs live (tac.operands.map .read)).1.reg t := by
    intro t ht
    rw [← hst2.reg ht]
    apply hR
    simp only [AllocState.asked, List.map_append, List.reverse_append, List.append_assoc] at ht ⊢
    exact List.mem_append_right _ ht
  obtain ⟨h1, h2, h3, h4, h5⟩ := findRegs_reads M left R F hb hk hst1 hR1
    (fun t o ho => hF t o (hgrows t o ho)) hinj hlive hexact
    (fun t ht => hread t (Tac.mem_operands.1 ht)) (by simp) h
  have huse : ∀ t ∈ tac.uses, (runCode M left m
      (asmOf R F (s.findRegs live (tac.operands.map .read)).2)).regs ((R t).getD 0) =
        e.env t := by
    intro t ht
    obtain ⟨r, hr⟩ := h4 t (Or.inl (Tac.mem_operands.2 ht))
    rw [hR1 t (hk.findRegs live _ r t hr), hkeeps.1 hb r t hr, Option.getD_some]
    exact h3.inReg r t hr (hread t ht)
  cases hdef : tac.defines with
  | none =>
    simp only [Option.map_none, Option.toList_none, AllocState.findRegs_nil, List.append_nil]
    exact ⟨h1, h2, h3.mono fun t ht => ht.1, huse, by simp⟩
  | some t =>
    rw [hdef] at hst2 hR hF
    simp only [Option.map_some, Option.toList_some] at hst2 hR hF ⊢
    have hR2 : ∀ x ∈ (Access.write t).temp :: AllocState.asked seen (tac.operands.map .read),
        R x = ((s.findRegs live (tac.operands.map .read)).1.findReg live (.write t)).1.reg x := by
      intro x hx
      apply hR
      simp only [AllocState.asked, List.map_append, List.reverse_append, List.map_cons,
        List.map_nil, List.reverse_cons, List.reverse_nil, List.nil_append,
        List.cons_append] at hx ⊢
      exact hx
    obtain ⟨hright, heval, hholds, hregs⟩ := findReg_holds M left R F
      (hkeeps.1 hb) (hk.findRegs live _) hst2.1 hR2 hF hinj hlive h5
      (fun hc => by cases hc) h3
    · rw [AllocState.findRegs_cons, AllocState.findRegs_nil, List.append_nil, asmOf_append,
        runCode_append, codeRight_append, List.foldl_append, h2]
      refine ⟨⟨h1, hright⟩, heval, hholds.mono ?_, ?_, ?_⟩
      · rintro x ⟨hl, hne⟩
        refine ⟨hl, Or.inr ?_⟩
        rintro rfl
        exact hne rfl
      · intro x hx
        rw [hregs rfl]
        exact huse x hx
      · intro x hx
        obtain rfl := Option.some_inj.1 hx
        exact AllocState.findReg_inReg (hkeeps.1 hb) live (.write t)

/-- What is live behind an instruction is where it belongs. -/
theorem Holds.kept (h : Holds s F L m e) (hR : ∀ r t, s.var r = some t → R t = some r) {t : Temp}
    (ht : L t) : m.regs ((R t).getD 0) = e.env t ∨ ∀ o, F t = some o → m.frame o = e.env t := by
  by_cases hr : ∃ r, s.var r = some t
  · obtain ⟨r, hr⟩ := hr
    left
    rw [hR r t hr, Option.getD_some]
    exact h.inReg r t hr ht
  · right
    intro o ho
    exact h.inSlot t o ht (fun r hr' => hr ⟨r, hr'⟩) ho

/-- An instruction that is no call computes its result from its operands. -/
theorem tac_holds {x : LiveTac} {actual : Int} {saves : List Temp} (hp : x.node.tac.isPlain = true)
    (hc : x.node.tac.isCall = false) (hb : s.Back)
    (huse : ∀ t ∈ x.node.tac.uses, m.regs ((R t).getD 0) = e.env t)
    (hdef : ∀ t, x.node.tac.defines = some t → ∃ r, s.var r = some t ∧ R t = some r)
    (h : Holds s F (fun t => L t ∧ x.node.tac.defines ≠ some t) m e) {L' : Temp → Prop}
    (hL : ∀ t, L' t → x.node.tac.defines = some t ∨ L t) :
    Holds s F L' (runCode M left m (asmOf R F [.tac x actual saves]))
      (evalItem M e (.tac x actual saves)) := by
  -- the result is written into the register of its temp
  have hset : ∀ t v, x.node.tac.defines = some t →
      Holds s F L' { m with regs := update m.regs ((R t).getD 0) v } (e.set t v) := by
    intro t v ht
    obtain ⟨r, hr, hRt⟩ := hdef t ht
    rw [hRt, Option.getD_some]
    refine Holds.set (h.mono ?_) hb hr v
    rintro y ⟨hy, hne⟩
    have hdy : x.node.tac.defines ≠ some y := by
      rw [ht]
      exact fun heq => hne (Option.some_inj.1 heq).symm
    exact ⟨(hL y hy).resolve_left hdy, hdy⟩
  have hworld : ∀ w : W, x.node.tac.defines = none →
      Holds s F L' { m with world := w } { e with world := w } := by
    intro w hn
    have h' : Holds s F L' m e := by
      apply h.mono
      intro y hy
      rw [hn]
      exact ⟨(hL y hy).resolve_left (by rw [hn]; simp), by simp⟩
    exact ⟨h'.inReg, h'.inSlot, rfl⟩
  have hw := h.world
  cases ht : x.node.tac with
  | binary opc op0 op1 op2 =>
    rw [ht] at huse hset
    have h1 := huse op1 (by simp [Tac.uses])
    have h2 := huse op2 (by simp [Tac.uses])
    simp only [asmOf, List.flatMap_cons, List.flatMap_nil, genAsm, ht, evalItem, evalTac, ← h1,
      ← h2]
    exact hset op0 _ rfl
  | unary opc op0 op1 =>
    rw [ht] at huse hset
    have h1 := huse op1 (by simp [Tac.uses])
    cases opc with
    | neg =>
      simp only [asmOf, List.flatMap_cons, List.flatMap_nil, genAsm, ht, evalItem, evalTac, ← h1]
      exact hset op0 _ rfl
    | lnot =>
      simp only [asmOf, List.flatMap_cons, List.flatMap_nil, genAsm, ht, evalItem, evalTac, ← h1]
      exact hset op0 _ rfl
    | assign =>
      have hs := hset op0 (e.env op1) rfl
      simp only [asmOf, List.flatMap_cons, List.flatMap_nil, genAsm, ht, evalItem, evalTac]
      split
      · rw [← h1] at hs ⊢
        exact hs
      · next heq =>
        -- nothing is printed, as the value is in the register already
        rw [ne_eq, not_not] at heq
        rw [heq, ← h1, update_eq_self] at hs
        rw [← h1]
        exact hs
  | loadVtbl op0 vt =>
    rw [ht] at hset
    simp only [asmOf, List.flatMap_cons, List.flatMap_nil, genAsm, ht, evalItem, evalTac]
    exact hset op0 _ rfl
  | loadStrConst op0 str =>
    rw [ht] at hset
    simp only [asmOf, List.flatMap_cons, List.flatMap_nil, genAsm, ht, evalItem, evalTac]
    exact hset op0 _ rfl
  | loadImm4 op0 value =>
    rw [ht] at hset
    simp only [asmOf, List.flatMap_cons, List.flatMap_nil, genAsm, ht, evalItem, evalTac]
    exact hset op0 _ rfl
  | mflo op0 =>
    rw [ht] at hset
    simp only [asmOf, List.flatMap_cons, List.flatMap_nil, genAsm, ht, evalItem, evalTac, ← hw]
    exact hset op0 _ rfl
  | load op0 op1 offset =>
    rw [ht] at huse hset
    have h1 := huse op1 (by simp [Tac.uses])
    simp only [asmOf, List.flatMap_cons, List.flatMap_nil, genAsm, ht, evalItem, evalTac, ← h1,
      ← hw]
    exact hset op0 _ rfl
  | store op0 op1 offset =>
    rw [ht] at huse hworld
    have h0 := huse op0 (by simp [Tac.uses])
    have h1 := huse op1 (by simp [Tac.uses])
    simp only [asmOf, List.flatMap_cons, List.flatMap_nil, genAsm, ht, evalItem, evalTac, ← h0,
      ← h1, ← hw]
    exact hworld _ rfl
  | mult op0 op1 =>
    rw [ht] at huse hworld
    have h0 := huse op0 (by simp [Tac.uses])
    have h1 := huse op1 (by simp [Tac.uses])
    simp only [asmOf, List.flatMap_cons, List.flatMap_nil, genAsm, ht, evalItem, evalTac, ← h0,
      ← h1, ← hw]
    exact hworld _ rfl
  | parm op0 =>
    rw [ht] at huse hworld
    have h0 := huse op0 (by simp [Tac.uses])
    simp only [asmOf, List.flatMap_cons, List.flatMap_nil, genAsm, ht, evalItem, evalTac, ← h0,
      ← hw]
    exact hworld _ rfl
  | indirectCall _ _ => simp [ht, Tac.isCall] at hc
  | directCall _ _ => simp [ht, Tac.isCall] at hc
  | _ => simp [ht, Tac.isPlain, Tac.isJump, Tac.isMemo, Tac.isMark, Tac.marked?] at hp

end

/-! ## Calls -/

section

variable {α β γ : Type} [DecidableEq β] {key : α → β} {val : α → γ} {l : List α} {f : β → γ}
  {b : β}

theorem foldl_update_other (h : ∀ x ∈ l, key x ≠ b) :
    l.foldl (fun f x => update f (key x) (val x)) f b = f b := by
  induction l generalizing f with
  | nil => rfl
  | cons x l ih =>
    rw [List.foldl_cons, ih fun y hy => h y (List.mem_cons_of_mem x hy)]
    exact update_of_ne (h x List.mem_cons_self).symm _ _

theorem foldl_update_mem {c : γ} (hb : ∃ x ∈ l, key x = b) (h : ∀ x ∈ l, key x = b → val x = c) :
    l.foldl (fun f x => update f (key x) (val x)) f b = c := by
  induction l generalizing f with
  | nil =>
    obtain ⟨x, hx, -⟩ := hb
    cases hx
  | cons x l ih =>
    have hl := fun y hy => h y (List.mem_cons_of_mem x hy)
    by_cases hmem : ∃ y ∈ l, key y = b
    · exact ih hmem hl
    · have hx : key x = b := by
        obtain ⟨y, hy, hk⟩ := hb
        obtain rfl | hy := List.mem_cons.1 hy
        · exact hk
        · exact absurd ⟨y, hy, hk⟩ hmem
      rw [List.foldl_cons, foldl_update_other fun y hy hk => hmem ⟨y, hy, hk⟩, hx, update_self]
      exact h x List.mem_cons_self hx

end

section

variable {k : Nat} {V W : Type} {M : Meaning V W} {left : W → Fin (k + 1) → V}
  {R : Temp → Option (Fin (k + 1))} {F : Temp → Option Int} {s : AllocState k} {L : Temp → Prop}
  {m : MipsMachine k V W} {e : Values V W}

theorem run_stores (reg : Temp → Fin (k + 1)) (slot : Temp → Int) (saves : List Temp) :
    runCode M left m (saves.map fun t => .sw (reg t) (slot t) .fp) =
      { m with frame := saves.foldl (fun f t => update f (slot t) (m.regs (reg t))) m.frame } := by
  induction saves generalizing m with
  | nil => rfl
  | cons t saves ih => exact ih

theorem run_loads (reg : Temp → Fin (k + 1)) (slot : Temp → Int) (saves : List Temp) :
    runCode M left m (saves.map fun t => .lw (reg t) (slot t) .fp) =
      { m with regs := saves.foldl (fun g t => update g (reg t) (m.frame (slot t))) m.regs } := by
  induction saves generalizing m with
  | nil => rfl
  | cons t saves ih => exact ih

/-- What is live over a call is stored in front of it and loaded again behind it, and the result
is in its register. -/
theorem call_holds {op0 : Option Temp} {saves liveOut : List Temp} {c : Asm k} {v : V} {w : W}
    (hb : s.Back) (hR : ∀ r t, s.var r = some t → R t = some r)
    (hinj : ∀ t t' o, F t = some o → F t' = some o → t = t')
    (hsaves : ∀ t, t ∈ saves ↔ t ∈ liveOut ∧ s.inReg t = true ∧ op0 ≠ some t)
    (hslots : ∀ t ∈ saves, ∃ o, F t = some o)
    (hdef : ∀ t, op0 = some t → ∃ r, s.var r = some t)
    (h : Holds s F (fun t => L t ∧ op0 ≠ some t) m e) (hL : ∀ t ∈ liveOut, op0 = some t ∨ L t)
    (hc : ∀ f, runAsm M left { m with frame := f } c =
      { regs := left w, v0 := v, frame := f, world := w }) :
    Holds s F (· ∈ liveOut)
      (runCode M left m (genAsmForCall (fun t => (R t).getD 0) saves (fun t => (F t).getD 0) c op0))
      ({ e with world := w }.setIf v op0) := by
  have hslot : ∀ t ∈ saves, F t = some ((F t).getD 0) := by
    intro t ht
    obtain ⟨o, ho⟩ := hslots t ht
    rw [ho, Option.getD_some]
  have hreg : ∀ t ∈ saves, ∃ r, s.var r = some t ∧ (R t).getD 0 = r := by
    intro t ht
    obtain ⟨r, hr⟩ := (AllocState.inReg_iff hb).1 ((hsaves t).1 ht).2.1
    exact ⟨r, hr, by rw [hR r t hr, Option.getD_some]⟩
  -- the frame with everything stored, and the registers behind the call
  obtain ⟨f1, hf1⟩ : ∃ f1, saves.foldl
      (fun f t => update f ((F t).getD 0) (m.regs ((R t).getD 0))) m.frame = f1 := ⟨_, rfl⟩
  obtain ⟨g, hg⟩ : ∃ g, runCode M left { regs := left w, v0 := v, frame := f1, world := w }
      (op0.map fun t => Asm.moveV0 ((R t).getD 0)).toList =
        { regs := g, v0 := v, frame := f1, world := w } ∧
      ∀ t, op0 = some t → g ((R t).getD 0) = v := by
    cases op0 with
    | none => exact ⟨left w, rfl, by simp⟩
    | some t =>
      refine ⟨update (left w) ((R t).getD 0) v, rfl, ?_⟩
      intro t' ht
      obtain rfl := Option.some_inj.1 ht
      exact update_self _ _ _
  have hrun : runCode M left m
      (genAsmForCall (fun t => (R t).getD 0) saves (fun t => (F t).getD 0) c op0) =
        { regs := saves.foldl (fun g t => update g ((R t).getD 0) (f1 ((F t).getD 0))) g
          v0 := v, frame := f1, world := w } := by
    rw [genAsmForCall, runCode_append, run_stores, hf1]
    show runCode M left (runAsm M left _ c) _ = _
    rw [hc, runCode_append, hg.1, run_loads]
  have henv : ∀ t, op0 ≠ some t → (({ e with world := w } : Values V W).setIf v op0).env t =
      e.env t := by
    intro t ht
    cases op0 with
    | none => rfl
    | some t' =>
      have hne : t ≠ t' := fun heq => ht (congrArg some heq.symm)
      simp [Values.setIf, Values.set, hne]
  have henv' : ∀ t, op0 = some t → (({ e with world := w } : Values V W).setIf v op0).env t =
      v := by
    rintro t rfl
    simp [Values.setIf, Values.set]
  rw [hrun]
  refine ⟨?_, ?_, ?_⟩
  · intro r t hr ht
    have hRt : (R t).getD 0 = r := by rw [hR r t hr, Option.getD_some]
    by_cases hop : op0 = some t
    · rw [henv' t hop, ← hg.2 t hop, hRt]
      apply foldl_update_other
      intro y hy heq
      obtain ⟨r', hr', hy'⟩ := hreg y hy
      have hyr : y = t := by
        rw [hy'] at heq
        rw [heq, hr, Option.some.injEq] at hr'
        exact hr'.symm
      exact ((hsaves y).1 hy).2.2 (hyr ▸ hop)
    · have hl : L t := (hL t ht).resolve_left hop
      have hmem : t ∈ saves := (hsaves t).2 ⟨ht, (AllocState.inReg_iff hb).2 ⟨r, hr⟩, hop⟩
      rw [henv t hop, ← h.inReg r t hr ⟨hl, hop⟩]
      apply foldl_update_mem ⟨t, hmem, hRt⟩
      intro y hy heq
      obtain ⟨r', hr', hy'⟩ := hreg y hy
      have hyt : y = t := by
        rw [hy'] at heq
        rw [heq, hr, Option.some.injEq] at hr'
        exact hr'.symm
      subst hyt
      rw [← hf1]
      apply foldl_update_mem ⟨y, hmem, rfl⟩
      intro z hz hzo
      have hzy : z = y := hinj z y _ (hzo ▸ hslot z hz) (hslot y hmem)
      rw [hzy, hRt]
  · intro t o ht hn ho
    have hop : op0 ≠ some t := by
      intro hop
      obtain ⟨r, hr⟩ := hdef t hop
      exact hn r hr
    rw [henv t hop, ← h.inSlot t o ⟨(hL t ht).resolve_left hop, hop⟩ hn ho]
    show f1 o = m.frame o
    rw [← hf1]
    apply foldl_update_other
    intro y hy heq
    obtain ⟨r', hr', -⟩ := hreg y hy
    exact hn r' (hinj y t o (heq ▸ hslot y hy) ho ▸ hr')
  · cases op0 <;> rfl

end

/-! ## A block -/

section

variable {k : Nat} {V W : Type} {M : Meaning V W} {left : W → Fin (k + 1) → V}
  {R : Temp → Option (Fin (k + 1))} {F : Temp → Option Int} {s : AllocState k} {L : Temp → Prop}
  {m : MipsMachine k V W} {e : Values V W} {live : Finset Temp} {seen : List Temp}

variable (M left R F) in
/-- One turn of the loop of `alloc`: the code is right, and what is live behind the instruction is
where it belongs. -/
theorem allocTac_holds {x : LiveTac} (hp : x.node.tac.isPlain = true) (hb : s.Back)
    (hk : s.Known seen) (hst : s.SteadyRegs live seen [] x.node.tac.accesses)
    (hR : ∀ t ∈ AllocState.asked seen x.node.tac.accesses, R t = (s.allocTac live x).1.reg t)
    (hF : ∀ t o, (s.allocTac live x).1.offset t = some o → F t = some o)
    (hinj : ∀ t t' o, F t = some o → F t' = some o → t = t')
    (hlive : ∀ t, L t → t ∈ live) (hexact : ∀ r y, s.var r = some y → y ∈ live → L y)
    (hL : ∀ t, L t ↔ t ∈ x.node.tac.uses ∨ (t ∈ x.liveOut ∧ x.node.tac.defines ≠ some t))
    (h : Holds s F L m e) :
    CodeRight M left R F m e (s.allocTac live x).2 ∧
      Holds (s.allocTac live x).1 F (· ∈ x.liveOut)
        (runCode M left m (asmOf R F (s.allocTac live x).2))
        ((s.allocTac live x).2.foldl (evalItem M) e) := by
  obtain ⟨actual, saves, hitems, hfin⟩ := s.allocTac_cases live x
  have hkeeps := s.findRegs_keeps live x.node.tac.accesses
  rw [hfin.reg] at hR
  obtain ⟨h1, h2, h3, huse, hdef⟩ := findRegs_holds M left R F hp hb hk hst hR
    (fun t o ho => hF t o (hfin.grows t o ho)) hinj hlive hexact
    (fun t ht => (hL t).2 (Or.inl ht)) h
  have hbound : ∀ r t, (s.findRegs live x.node.tac.accesses).1.var r = some t → R t = some r := by
    intro r t hr
    rw [hR t (hk.findRegs live _ r t hr)]
    exact hkeeps.1 hb r t hr
  have hout : ∀ t ∈ x.liveOut, x.node.tac.defines = some t ∨ L t := by
    intro t ht
    by_cases hd : x.node.tac.defines = some t
    · exact Or.inl hd
    · exact Or.inr ((hL t).2 (Or.inr ⟨ht, hd⟩))
  have hafter : Holds (s.findRegs live x.node.tac.accesses).1 F (· ∈ x.liveOut)
      (runCode M left (runCode M left m (asmOf R F (s.findRegs live x.node.tac.accesses).2))
        (asmOf R F [.tac x actual saves])) (evalItem M e (.tac x actual saves)) := by
    cases hcall : x.node.tac.isCall with
    | false =>
      refine tac_holds hp hcall (hkeeps.1 hb) huse ?_ h3 hout
      intro t ht
      obtain ⟨r, hr⟩ := hdef t ht
      exact ⟨r, hr, hbound r t hr⟩
    | true =>
      have hslots : ∀ t ∈ saves, ∃ o, F t = some o := by
        intro t ht
        obtain ⟨o, ho⟩ := Option.isSome_iff_exists.1 (hfin.slots t ht)
        exact ⟨o, hF t o ho⟩
      have hw := h3.world
      have hsaves := hfin.saved hcall
      cases ht : x.node.tac with
      | indirectCall op0 op1 =>
        rw [ht] at hsaves hdef h3 hout huse hbound hkeeps hw
        have h1 := huse op1 (by simp [Tac.uses])
        simp only [asmOf, List.flatMap_cons, List.flatMap_nil, List.append_nil, genAsm, ht,
          evalItem, evalTac]
        refine call_holds (hkeeps.1 hb) hbound hinj hsaves hslots hdef h3 hout ?_
        intro f
        rw [← h1, ← hw]
        rfl
      | directCall op0 label =>
        rw [ht] at hsaves hdef h3 hout huse hbound hkeeps hw
        simp only [asmOf, List.flatMap_cons, List.flatMap_nil, List.append_nil, genAsm, ht,
          evalItem, evalTac]
        refine call_holds (hkeeps.1 hb) hbound hinj hsaves hslots hdef h3 hout ?_
        intro f
        rw [← hw]
        rfl
      | _ => simp [ht, Tac.isCall] at hcall
  rw [hitems, codeRight_append, asmOf_append, runCode_append, List.foldl_append, h2]
  refine ⟨⟨h1, huse, ?_, trivial⟩, hafter.congr hfin.var⟩
  intro t ht
  exact hafter.kept hbound ht

theorem mem_askedBy (xs : List LiveTac) {t : Temp} (h : t ∈ seen) :
    t ∈ AllocState.askedBy xs seen := by
  induction xs generalizing seen with
  | nil => exact h
  | cons x xs ih => exact ih (AllocState.mem_asked h)

variable (M left R F) in
/-- The loop of `alloc`. -/
theorem allocTacs_holds {xs : List LiveTac} {last : Finset Temp}
    (hp : ∀ x ∈ xs, x.node.tac.isPlain = true) (hb : s.Back) (hk : s.Known seen)
    (hst : s.SteadyTacs live seen xs)
    (hR : ∀ t ∈ AllocState.askedBy xs seen, R t = (s.allocTacs live xs).1.reg t)
    (hF : ∀ t o, (s.allocTacs live xs).1.offset t = some o → F t = some o)
    (hinj : ∀ t t' o, F t = some o → F t' = some o → t = t')
    (houts : xs.map (fun x => x.liveOut.toFinset) = tacLiveOuts last (xs.map LiveTac.node))
    (hlive : through last (xs.map LiveTac.node) ⊆ live)
    (hexact : ∀ r y, s.var r = some y → y ∈ live → y ∈ through last (xs.map LiveTac.node))
    (h : Holds s F (· ∈ through last (xs.map LiveTac.node)) m e) :
    CodeRight M left R F m e (s.allocTacs live xs).2 ∧
      Holds (s.allocTacs live xs).1 F (· ∈ last)
        (runCode M left m (asmOf R F (s.allocTacs live xs).2))
        ((s.allocTacs live xs).2.foldl (evalItem M) e) := by
  induction xs generalizing s live seen m e with
  | nil => exact ⟨trivial, h⟩
  | cons x xs ih =>
    have hpx := hp x List.mem_cons_self
    rw [List.map_cons, List.map_cons, tacLiveOuts_cons, List.cons.injEq] at houts
    obtain ⟨hout, houts⟩ := houts
    have hmem : ∀ t, t ∈ through last (xs.map LiveTac.node) ↔ t ∈ x.liveOut := by
      intro t
      rw [← hout, List.mem_toFinset]
    have hgrows := ((s.allocTac live x).1.allocTacs_keeps x.liveOut.toFinset xs).2.1
    have hRx : ∀ t ∈ AllocState.asked seen x.node.tac.accesses,
        R t = (s.allocTac live x).1.reg t := by
      intro t ht
      have hmore : t ∈ AllocState.askedBy (x :: xs) seen := mem_askedBy xs ht
      exact (hR t hmore).trans (hst.2.reg ht)
    obtain ⟨h1, h2⟩ := allocTac_holds M left R F hpx hb hk hst.1 hRx
      (fun t o ho => hF t o (hgrows t o ho)) hinj (fun t ht => hlive ht) hexact
      (fun t => (mem_before hpx).trans (or_congr Iff.rfl (and_congr (hmem t) Iff.rfl))) h
    obtain ⟨h3, h4⟩ := ih (fun y hy => hp y (List.mem_cons_of_mem x hy))
      ((s.allocTac_keeps live x).1 hb) (hk.allocTac live x) hst.2 hR hF houts hout.symm.subset
      (fun r y _ hy => (hmem y).2 (List.mem_toFinset.1 hy))
      (h2.mono fun t ht => (hmem t).1 ht)
    rw [AllocState.allocTacs_cons, codeRight_append, asmOf_append, runCode_append,
      List.foldl_append]
    exact ⟨⟨h1, h3⟩, h4⟩

end

/-! ## alloc -/

namespace AllocState

variable {k : Nat} {s : AllocState k} {a : AllocBlock}

/-- The state when the allocator turns to a function: `memoOf` has fixed the slots of the
parameters, and `reset` has set the counters back. -/
def start (params : List Temp) (s : AllocState k) : AllocState k :=
  { s with
    offset := fun t => if t ∈ params then some (4 * (params.idxOf t + 1)) else none
    localOffset := -8
    currentActualSize := 4 }

/-- The blocks of a function, one after the other. -/
def allocAll (s : AllocState k) (as : List AllocBlock) : AllocState k :=
  as.foldl (fun s a => (s.alloc a).state) s

theorem placed_start (params : List Temp) (s : AllocState k) : (s.start params).Placed := by
  constructor
  · intro t o h
    simp only [start] at h ⊢
    split at h
    · obtain rfl := Option.some_inj.1 h
      omega
    · cases h
  · intro t t' o h h'
    simp only [start] at h h'
    split at h
    · next ht =>
      split at h'
      · have heq := (Option.some_inj.1 h).trans (Option.some_inj.1 h').symm
        exact (List.idxOf_inj ht).1 (by omega)
      · cases h'
    · cases h

/-- The saves of a block, and what its end does when the variable has to be loaded again. -/
theorem alloc_cases (s : AllocState k) (a : AllocBlock) :
    (s.alloc a).saves = ((s.looped a).findSaves none a.liveOut).2 ∧
      ((∀ v ∈ a.reads, (s.looped a).inReg v = true) ∧
          (s.alloc a).state = ((s.looped a).findSaves none a.liveOut).1 ∧
          (s.alloc a).items = (s.clear.allocTacs a.liveIn a.tacs).2 ∧
          (s.alloc a).varReg = a.reads.bind (s.looped a).reg ∨
        ∃ v, a.reads = some v ∧ (s.looped a).inReg v = false ∧
          (s.alloc a).state = { ((s.looped a).findSaves none a.liveOut).1 with
            reg := update (s.looped a).reg v (some 0) }.findSlot v ∧
          (s.alloc a).items = (s.clear.allocTacs a.liveIn a.tacs).2 ++
            [.load v ((s.alloc a).state.slot v)] ∧
          (s.alloc a).varReg = some 0) := by
  obtain ⟨hv, hr, -⟩ := (s.looped a).findSaves_spec none a.liveOut
  have hin : ∀ v, ((s.looped a).findSaves none a.liveOut).1.inReg v = (s.looped a).inReg v := by
    intro v
    simp only [inReg, hv, hr]
  unfold alloc
  simp only [looped] at hv hr hin ⊢
  cases ha : a.reads with
  | none => exact ⟨rfl, Or.inl ⟨by simp, rfl, rfl, rfl⟩⟩
  | some v =>
    dsimp only
    split
    · next hreg =>
      rw [hin] at hreg
      exact ⟨rfl, Or.inl ⟨by simpa using hreg, rfl, rfl, by simp [hr]⟩⟩
    · next hreg =>
      rw [hin, Bool.not_eq_true] at hreg
      exact ⟨rfl, Or.inr ⟨v, rfl, hreg, by rw [hr], rfl, rfl⟩⟩

theorem looped_keeps (s : AllocState k) (a : AllocBlock) :
    (s.looped a).Back ∧ s.Grows (s.looped a) ∧ (s.Placed → (s.looped a).Placed) := by
  obtain ⟨h1, h2, h3⟩ := s.clear.allocTacs_keeps a.liveIn a.tacs
  exact ⟨h1 s.back_clear, h2, fun h => h3 ⟨h.below, h.inj⟩⟩

theorem alloc_keeps (s : AllocState k) (a : AllocBlock) :
    (s.looped a).Grows (s.alloc a).state ∧ (s.Placed → (s.alloc a).state.Placed) ∧
      ∀ t ∈ (s.alloc a).saves, ((s.alloc a).state.offset t).isSome = true := by
  obtain ⟨-, -, hplaced⟩ := s.looped_keeps a
  obtain ⟨-, -, hg, hp, -, hsome⟩ := (s.looped a).findSaves_spec none a.liveOut
  obtain ⟨hsaves, ⟨-, hstate, -⟩ | ⟨v, -, -, hstate, -⟩⟩ := s.alloc_cases a
  · rw [hstate, hsaves]
    exact ⟨hg, fun h => hp (hplaced h), hsome⟩
  · rw [hstate, hsaves]
    have hgv := findSlot_grows { ((s.looped a).findSaves none a.liveOut).1 with
      reg := update (s.looped a).reg v (some 0) } v
    refine ⟨hg.trans hgv, ?_, ?_⟩
    · intro h
      have hp' := hp (hplaced h)
      exact Placed.findSlot v ⟨hp'.below, hp'.inj⟩
    · intro t ht
      obtain ⟨o, ho⟩ := Option.isSome_iff_exists.1 (hsome t ht)
      exact Option.isSome_iff_exists.2 ⟨o, hgv t o ho⟩

theorem placed_allocAll (h : s.Placed) (as : List AllocBlock) : (s.allocAll as).Placed := by
  induction as generalizing s with
  | nil => exact h
  | cons a as ih => exact ih ((s.alloc_keeps a).2.1 h)

/-- In a steady allocation the registers that are printed are those that the temps have had. -/
theorem Steady.reg (h : s.Steady a) {t : Temp} (ht : t ∈ askedBy a.tacs []) :
    (s.alloc a).state.reg t = (s.looped a).reg t := by
  obtain ⟨-, hr, -⟩ := (s.looped a).findSaves_spec none a.liveOut
  obtain ⟨-, ⟨-, hstate, -⟩ | ⟨v, hv, hin, hstate, -⟩⟩ := s.alloc_cases a
  · rw [hstate, hr]
  · rw [hstate, findSlot_reg]
    by_cases htv : t = v
    · subst htv
      obtain hreg | hsame := h.2 t hv
      · rw [hin] at hreg
        cases hreg
      · rw [hsame ht]
        exact update_self _ _ _
    · exact update_of_ne htv _ _

end AllocState

/-- Where a block begins, what is live has its value in its slot. -/
structure Enters {k : Nat} {V W : Type} (d : Allocated k) (a : AllocBlock) (m : MipsMachine k V W)
    (e : Values V W) : Prop where
  slots : ∀ t ∈ a.liveIn, ∀ o, d.state.offset t = some o → m.frame o = e.env t
  world : m.world = e.world

/-- The code of the block reads every operand where its value is, and loses nothing that is live
behind an instruction, whatever the instructions compute. -/
def OperandsRight {k : Nat} (d : Allocated k) (a : AllocBlock) : Prop :=
  ∀ (V W : Type) (M : Meaning V W) (left : W → Fin (k + 1) → V) (m : MipsMachine k V W)
    (e : Values V W), Enters d a m e → CodeRight M left d.state.reg d.state.offset m e d.items

/-- Where a block ends, what is live has its value in its slot, and the register that is tested
or returned has the value of the variable. -/
structure EndRight {k : Nat} {V W : Type} (d : Allocated k) (a : AllocBlock) (m : MipsMachine k V W)
    (e : Values V W) : Prop where
  slots : ∀ t ∈ a.liveOut, ∀ o, d.state.offset t = some o → m.frame o = e.env t
  var : ∀ v ∈ a.reads, ∃ r, d.varReg = some r ∧ m.regs r = e.env v

section

variable {k : Nat} {V W : Type} (M : Meaning V W) (left : W → Fin (k + 1) → V)
  {s : AllocState k} {a : AllocBlock} {m : MipsMachine k V W} {e : Values V W}

theorem looped_holds (hp : s.Placed) (hst : s.Steady a) (h : Enters (s.alloc a) a m e) :
    CodeRight M left (s.alloc a).state.reg (s.alloc a).state.offset m e
        (s.clear.allocTacs a.liveIn a.tacs).2 ∧
      Holds (s.looped a) (s.alloc a).state.offset (· ∈ addIf a.liveOut.toFinset a.var)
        (runCode M left m ((s.alloc a).code (s.clear.allocTacs a.liveIn a.tacs).2))
        ((s.clear.allocTacs a.liveIn a.tacs).2.foldl (evalItem M) e) := by
  obtain ⟨hgrows, hplaced, -⟩ := s.alloc_keeps a
  have hstart : Holds s.clear (s.alloc a).state.offset
      (· ∈ through (addIf a.liveOut.toFinset a.var) (a.tacs.map LiveTac.node)) m e := by
    refine ⟨?_, ?_, h.world⟩
    · intro r t ht
      cases ht
    · intro t o ht _ ho
      exact h.slots t (a.ins ht) o ho
  refine allocTacs_holds M left _ _ a.plain s.back_clear ?_ hst.1 ?_ ?_ (hplaced hp).inj a.outs
    a.ins ?_ hstart
  · intro r t ht
    cases ht
  · intro t ht
    exact hst.reg ht
  · exact hgrows
  · intro r t ht
    cases ht

/-- A register that holds a temp at the end of the loop is the one that is printed for it. -/
theorem printed_of_var (hst : s.Steady a) {r : Fin (k + 1)} {t : Temp}
    (ht : (s.looped a).var r = some t) : (s.alloc a).state.reg t = some r := by
  have hknown : (s.looped a).Known (AllocState.askedBy a.tacs []) := by
    have hall : ∀ (xs : List LiveTac) (s : AllocState k) (live : Finset Temp) (seen : List Temp),
        s.Known seen → (s.allocTacs live xs).1.Known (AllocState.askedBy xs seen) := by
      intro xs
      induction xs with
      | nil => exact fun s live seen h => h
      | cons x xs ih => exact fun s live seen h => ih _ _ _ (h.allocTac live x)
    exact hall a.tacs s.clear a.liveIn [] (by intro r t ht; cases ht)
  rw [hst.reg (hknown r t ht)]
  exact (s.looped_keeps a).1 r t ht

/-- Every instruction of a block whose allocation is steady reads its operands from registers that
hold their values, and no temp that is live behind it is lost. -/
theorem operands_right (params : List Temp) (s : AllocState k) (as : List AllocBlock)
    (a : AllocBlock) (h : ((s.start params).allocAll as).Steady a) :
    OperandsRight (((s.start params).allocAll as).alloc a) a := by
  intro V W M left m e henter
  have hp := AllocState.placed_allocAll (s.placed_start params) as
  obtain ⟨hright, -⟩ := looped_holds M left hp h henter
  obtain ⟨-, ⟨-, -, hitems, -⟩ | ⟨v, -, -, -, hitems, -⟩⟩ := AllocState.alloc_cases _ a
  · rw [hitems]
    exact hright
  · rw [hitems, codeRight_append]
    exact ⟨hright, by simp [CodeRight, Item.uses, Item.liveOut]⟩

/-- What the stores behind a block leave in the slot of a temp. -/
theorem stores_slot {d : Allocated k}
    (hinj : ∀ t t' o, d.state.offset t = some o → d.state.offset t' = some o → t = t')
    (hsome : ∀ t ∈ d.saves, (d.state.offset t).isSome = true) (m : MipsMachine k V W) {t : Temp}
    {o : Int} (ho : d.state.offset t = some o) :
    (runCode M left m d.stores).frame o = if t ∈ d.saves then m.regs (d.reg t) else m.frame o := by
  have hslot : ∀ {x}, x ∈ d.saves → d.state.slot x = o → x = t := by
    intro x hx hxo
    obtain ⟨o', ho'⟩ := Option.isSome_iff_exists.1 (hsome x hx)
    apply hinj x t o _ ho
    rw [← hxo, AllocState.slot, ho', Option.getD_some]
  rw [Allocated.stores, run_stores]
  dsimp only
  split
  · next ht =>
    refine foldl_update_mem ⟨t, ht, by rw [AllocState.slot, ho, Option.getD_some]⟩ ?_
    intro x hx hxo
    rw [hslot hx hxo]
  · next ht =>
    apply foldl_update_other
    intro x hx hxo
    exact ht (hslot hx hxo ▸ hx)

theorem stores_regs (d : Allocated k) (m : MipsMachine k V W) :
    (runCode M left m d.stores).regs = m.regs := by
  rw [Allocated.stores, run_stores]

theorem mem_saves (s : AllocState k) (a : AllocBlock) (t : Temp) :
    t ∈ (s.alloc a).saves ↔ t ∈ a.liveOut ∧ ∃ r, (s.looped a).var r = some t := by
  obtain ⟨-, -, -, -, hmem, -⟩ := (s.looped a).findSaves_spec none a.liveOut
  rw [(s.alloc_cases a).1, hmem, ← AllocState.inReg_iff (s.looped_keeps a).1]
  simp

/-- The stores put what is live behind the block into its slot, when the registers in front of them
hold it. -/
theorem slots_of_regs (hp : s.Placed) (hst : s.Steady a)
    (hregs : ∀ r, ∀ t ∈ a.liveOut, (s.looped a).var r = some t → m.regs r = e.env t)
    (hslots : ∀ t ∈ a.liveOut, ∀ o, (∀ r, (s.looped a).var r ≠ some t) →
      (s.alloc a).state.offset t = some o → m.frame o = e.env t) :
    ∀ t ∈ a.liveOut, ∀ o, (s.alloc a).state.offset t = some o →
      (runCode M left m (s.alloc a).stores).frame o = e.env t := by
  obtain ⟨-, hplaced, hsome⟩ := s.alloc_keeps a
  intro t ht o ho
  rw [stores_slot M left (hplaced hp).inj hsome m ho]
  split
  · next hs =>
    obtain ⟨-, r, hr⟩ := (mem_saves s a t).1 hs
    rw [Allocated.reg, printed_of_var hst hr, Option.getD_some]
    exact hregs r t ht hr
  · next hs =>
    exact hslots t ht o (fun r hr => hs ((mem_saves s a t).2 ⟨ht, r, hr⟩)) ho

/-- The variable that is loaded again comes into the first register. -/
theorem run_reload {v : Temp} (hn : (s.looped a).inReg v = false) (hv : a.reads = some v)
    (m : MipsMachine k V W) :
    (s.alloc a).state.offset v = some ((s.alloc a).state.slot v) ∧
      (s.alloc a).items = (s.clear.allocTacs a.liveIn a.tacs).2 ++
        [.load v ((s.alloc a).state.slot v)] ∧ (s.alloc a).varReg = some 0 ∧
      runCode M left m ((s.alloc a).code (s.alloc a).items) =
        (let m' := runCode M left m ((s.alloc a).code (s.clear.allocTacs a.liveIn a.tacs).2)
        { m' with regs := update m'.regs 0 (m'.frame ((s.alloc a).state.slot v)) }) := by
  obtain ⟨hin, -⟩ | ⟨v', hv', -, hstate, hitems, hreg⟩ := (s.alloc_cases a).2
  · rw [hin v hv] at hn
    cases hn
  · obtain rfl := Option.some_inj.1 (hv.symm.trans hv')
    have hvreg : (s.alloc a).reg v = 0 := by
      rw [Allocated.reg, hstate, AllocState.findSlot_reg]
      simp
    have hcode : (s.alloc a).code (s.alloc a).items =
        (s.alloc a).code (s.clear.allocTacs a.liveIn a.tacs).2 ++
          [.lw 0 ((s.alloc a).state.slot v) .fp] := by
      rw [hitems]
      refine (asmOf_append _ _ _ _).trans ?_
      simp only [← hvreg]
      rfl
    refine ⟨?_, hitems, hreg, ?_⟩
    · rw [hstate]
      exact AllocState.findSlot_offset _ v
    · rw [hcode, runCode_append]
      rfl

/-- The end of a block whose allocation is steady, at any place where no slot is shared. -/
theorem endRight_iff (hp : s.Placed) (hst : s.Steady a) (h : Enters (s.alloc a) a m e) :
    EndRight (s.alloc a) a
        (runCode M left m ((s.alloc a).code (s.alloc a).items ++ (s.alloc a).stores))
        ((s.alloc a).items.foldl (evalItem M) e) ↔
      ∀ v ∈ a.reads, (s.looped a).inReg v = true ∨ ∀ x ∈ a.liveOut, (s.looped a).var 0 = some x →
        ((s.alloc a).items.foldl (evalItem M) e).env x =
          ((s.alloc a).items.foldl (evalItem M) e).env v := by
  obtain ⟨-, hholds⟩ := looped_holds M left hp hst h
  obtain ⟨-, hplaced, hsome⟩ := s.alloc_keeps a
  obtain ⟨hback, -, -⟩ := s.looped_keeps a
  have hout : ∀ {t}, t ∈ a.liveOut → t ∈ addIf a.liveOut.toFinset a.var := fun ht =>
    mem_addIf.2 (Or.inr (List.mem_toFinset.2 ht))
  have hvar : ∀ {v}, v ∈ a.reads → v ∈ addIf a.liveOut.toFinset a.var := by
    intro v hv
    unfold AllocBlock.reads at hv
    split at hv
    · cases hv
    · exact mem_addIf.2 (Or.inl hv)
  rw [runCode_append]
  obtain ⟨hin, -, hitems, hreg⟩ | ⟨v, hv, hn, -⟩ := (s.alloc_cases a).2
  · refine iff_of_true ?_ fun v hv => Or.inl (hin v hv)
    rw [hitems]
    constructor
    · apply slots_of_regs M left hp hst
      · exact fun r t ht hr => hholds.inReg r t hr (hout ht)
      · exact fun t ht o hno ho => hholds.inSlot t o (hout ht) hno ho
    · intro v hv
      obtain ⟨r, hr⟩ := (AllocState.inReg_iff hback).1 (hin v hv)
      refine ⟨r, ?_, ?_⟩
      · rw [hreg, Option.mem_def.1 hv]
        exact hback r v hr
      · rw [stores_regs]
        exact hholds.inReg r v hr (hvar hv)
  · obtain ⟨hvslot, hitems, hreg, hrun⟩ := run_reload M left hn hv m
    have hval := hholds.inSlot v _ (hvar hv)
      (fun r hr => Bool.false_ne_true (hn.symm.trans ((AllocState.inReg_iff hback).2 ⟨r, hr⟩)))
      hvslot
    have heval : (s.alloc a).items.foldl (evalItem M) e =
        (s.clear.allocTacs a.liveIn a.tacs).2.foldl (evalItem M) e := by
      rw [hitems, List.foldl_append]
      rfl
    rw [hrun, heval]
    dsimp only
    rw [hval]
    generalize runCode M left m ((s.alloc a).code (s.clear.allocTacs a.liveIn a.tacs).2) = m1 at *
    constructor
    · intro hright v' hv'
      obtain rfl := Option.some_inj.1 (hv.symm.trans hv')
      refine Or.inr fun x hx hx0 => ?_
      -- what the first register held is stored after the variable has come into it
      have hs : x ∈ (s.alloc a).saves := (mem_saves s a x).2 ⟨hx, 0, hx0⟩
      obtain ⟨o, ho⟩ := Option.isSome_iff_exists.1 (hsome x hs)
      have hxo := hright.slots x hx o ho
      rw [stores_slot M left (hplaced hp).inj hsome _ ho, if_pos hs, Allocated.reg,
        printed_of_var hst hx0, Option.getD_some] at hxo
      simpa using hxo.symm
    · intro hcond
      have hsame := (hcond v hv).resolve_left (by rw [hn]; exact Bool.false_ne_true)
      constructor
      · apply slots_of_regs M left hp hst
        · intro r t ht hr
          dsimp only
          by_cases hr0 : r = 0
          · subst hr0
            rw [update_self, hsame t ht hr]
          · rw [update_of_ne hr0]
            exact hholds.inReg r t hr (hout ht)
        · exact fun t ht o hno ho => hholds.inSlot t o (hout ht) hno ho
      · intro v' hv'
        obtain rfl := Option.some_inj.1 (hv.symm.trans hv')
        refine ⟨0, hreg, ?_⟩
        rw [stores_regs]
        simp

/-- The end of a block whose allocation is steady is right exactly when the variable that is read
there is still in its register, or the register that it is loaded into holds nothing that is live
behind the block, or holds the same value. -/
theorem block_end_iff (params : List Temp) (s : AllocState k) (as : List AllocBlock)
    (hst : ((s.start params).allocAll as).Steady a)
    (h : Enters (((s.start params).allocAll as).alloc a) a m e) :
    EndRight (((s.start params).allocAll as).alloc a) a
        (runCode M left m ((((s.start params).allocAll as).alloc a).code
          (((s.start params).allocAll as).alloc a).items ++
            (((s.start params).allocAll as).alloc a).stores))
        ((((s.start params).allocAll as).alloc a).items.foldl (evalItem M) e) ↔
      ∀ v ∈ a.reads, (((s.start params).allocAll as).looped a).inReg v = true ∨
        ∀ x ∈ a.liveOut, (((s.start params).allocAll as).looped a).var 0 = some x →
          ((((s.start params).allocAll as).alloc a).items.foldl (evalItem M) e).env x =
            ((((s.start params).allocAll as).alloc a).items.foldl (evalItem M) e).env v :=
  endRight_iff M left (AllocState.placed_allocAll (s.placed_start params) as) hst h

end

/-! ## The blocks of a function -/

/-- A block of the graph with the sets that the analysis left in it, as the allocator finds it. -/
def AllocBlock.Of (a : AllocBlock) (b : LiveBlock) : Prop :=
  a.tacs.map LiveTac.node = b.bb.tacList ∧
    a.tacs.map (fun x => x.liveOut.toFinset) = b.tacLiveOuts ∧
    a.liveIn = b.liveIn ∧ a.liveOut.toFinset = b.liveOut ∧ a.var = b.bb.var ∧
    a.endKind = b.bb.endKind

theorem length_tacLiveOuts (last : Finset Temp) (tacs : List Node) :
    (tacLiveOuts last tacs).length = tacs.length := by
  induction tacs with
  | nil => rfl
  | cons n rest ih => simp [tacLiveOuts_cons, ih]

theorem allocBlock_of {b : LiveBlock} (hplain : ∀ n ∈ b.bb.tacList, n.tac.isPlain = true)
    (hin : through (addIf b.liveOut b.bb.var) b.bb.tacList ⊆ b.liveIn) :
    ∃ a : AllocBlock, a.Of b := by
  have hlen : b.bb.tacList.length = b.tacLiveOuts.length := (length_tacLiveOuts _ _).symm
  have hnodes : ((b.bb.tacList.zip b.tacLiveOuts).map fun x => LiveTac.mk x.1 x.2.toList).map
      LiveTac.node = b.bb.tacList := by
    rw [List.map_map]
    exact List.map_fst_zip hlen.le
  have houts : ((b.bb.tacList.zip b.tacLiveOuts).map fun x => LiveTac.mk x.1 x.2.toList).map
      (fun x => x.liveOut.toFinset) = b.tacLiveOuts := by
    simp only [List.map_map, Function.comp_def, Finset.toList_toFinset]
    exact List.map_snd_zip hlen.ge
  refine ⟨⟨_, b.liveIn, b.liveOut.toList, b.bb.var, b.bb.endKind, ?_, ?_, ?_⟩, hnodes, houts, rfl,
    Finset.toList_toFinset _, rfl, rfl⟩
  · intro x hx
    apply hplain
    rw [← hnodes]
    exact List.mem_map_of_mem hx
  · rw [houts, hnodes, Finset.toList_toFinset]
    rfl
  · rw [hnodes, Finset.toList_toFinset]
    exact hin

/-- Every block of a function's graph comes to the allocator with sets that obey its laws. -/
theorem allocBlocks_of_flowGraph (f : Functy) {fuel : Nat} {g : List BasicBlock}
    (h : flowGraph fuel f = some g) :
    ∃ bbs turns, (∀ turns' > turns, analyzeLiveness turns' g = some bbs) ∧
      ∀ b ∈ bbs, ∃ a : AllocBlock, a.Of b := by
  have hg := wellNumbered_of_flowGraph h
  obtain ⟨bbs, turns, _, hrun, hshape, hset⟩ := analyzeLiveness_settles hg
  refine ⟨bbs, turns, hrun, ?_⟩
  intro b hb
  exact allocBlock_of (hg.plain b.bb (hshape.mem hb)) fun t ht => hshape.mem_liveIn hset hb ht

/-! ## A variable that comes back into another register -/

/-- What the first `n` instructions leave in the registers of the operands of the next one. -/
theorem CodeRight.uses {k : Nat} {V W : Type} {M : Meaning V W} {left : W → Fin (k + 1) → V}
    {R : Temp → Option (Fin (k + 1))} {F : Temp → Option Int} {m : MipsMachine k V W}
    {e : Values V W} {is : List Item} (h : CodeRight M left R F m e is) {n : Nat} {ts : List Temp}
    (hts : is[n]?.map Item.uses = some ts) :
    ∀ t ∈ ts, (runCode M left m (asmOf R F (is.take n))).regs ((R t).getD 0) =
      ((is.take n).foldl (evalItem M) e).env t := by
  obtain ⟨i, hi, rfl⟩ := Option.map_eq_some_iff.1 hts
  obtain ⟨hlt, rfl⟩ := List.getElem?_eq_some_iff.1 hi
  rw [← List.take_append_drop n is, List.drop_eq_getElem_cons hlt] at h
  exact (codeRight_append.1 h).2.1

/-- An instruction with its `liveOut`. -/
def liveTac (pos : Nat) (tac : Tac) (liveOut : List Nat) : LiveTac :=
  ⟨⟨pos, tac, 0⟩, liveOut.map Temp.mk⟩

/-- `Print(z); y = z + 1; x = y + z; Print(x); w = y + z; Print(z); x = w; return x + y;`, where
`z`, `y`, `x` and `w` are 0 to 3. -/
def reusedVariable : AllocBlock where
  tacs := [
    liveTac 0 (.parm ⟨0⟩) [0],
    liveTac 1 (.directCall none ⟨9⟩) [0],
    liveTac 2 (.loadImm4 ⟨4⟩ 1) [0, 4],
    liveTac 3 (.binary .add ⟨5⟩ ⟨0⟩ ⟨4⟩) [0, 5],
    liveTac 4 (.unary .assign ⟨1⟩ ⟨5⟩) [0, 1],
    liveTac 5 (.binary .add ⟨6⟩ ⟨1⟩ ⟨0⟩) [0, 1, 6],
    liveTac 6 (.unary .assign ⟨2⟩ ⟨6⟩) [0, 1, 2],
    liveTac 7 (.parm ⟨2⟩) [0, 1],
    liveTac 8 (.directCall none ⟨9⟩) [0, 1],
    liveTac 9 (.binary .add ⟨7⟩ ⟨1⟩ ⟨0⟩) [0, 1, 7],
    liveTac 10 (.unary .assign ⟨3⟩ ⟨7⟩) [0, 1, 3],
    liveTac 11 (.parm ⟨0⟩) [1, 3],
    liveTac 12 (.directCall none ⟨9⟩) [1, 3],
    liveTac 13 (.unary .assign ⟨2⟩ ⟨3⟩) [1, 2],
    liveTac 14 (.binary .add ⟨8⟩ ⟨2⟩ ⟨1⟩) [8]]
  liveIn := {⟨0⟩}
  liveOut := []
  var := some ⟨8⟩
  endKind := .BY_RETURN
  plain := by decide
  outs := by decide
  ins := by decide

/-- Sums of numbers. Calls and the memory are of no account. -/
def sums : Meaning Int Unit where
  op3 _ a b := a + b
  negu a := -a
  not a := a
  laVtbl _ := 0
  laString _ := 0
  li c := c
  lw _ _ _ := 0
  sw _ _ _ _ := ()
  arg _ _ _ := ()
  mult _ _ _ := ()
  mflo _ := 0
  call _ _ := (0, ())

/-- Registers that nobody has used. -/
def unused : AllocState 16 where
  var _ := none
  reg _ := none
  offset _ := none
  localOffset := -8
  currentActualSize := 4
  random _ := 0

/-- The values of a function whose parameters have been stored in the frame. -/
def ofFrame (slots : List (Temp × Int × Int)) : MipsMachine 16 Int Unit × Values Int Unit where
  fst := {
    regs := fun _ => 0
    v0 := 0
    frame := fun o => ((slots.find? fun x => x.2.1 = o).map fun x => x.2.2).getD 0
    world := () }
  snd := ⟨fun t => ((slots.find? fun x => x.1 = t).map fun x => x.2.2).getD 0, ()⟩

/-- In the third `Print(z)` the register of `z` holds `x`: the block gives it to `x` in the end, and
prints it for the whole block. -/
theorem reusedVariable_wrong :
    ¬ OperandsRight ((unused.start [⟨0⟩]).alloc reusedVariable) reusedVariable := by
  intro h
  have henter : Enters ((unused.start [⟨0⟩]).alloc reusedVariable) reusedVariable
      (ofFrame [(⟨0⟩, 4, 10)]).1 (ofFrame [(⟨0⟩, 4, 10)]).2 := by
    constructor
    · intro t ht o ho
      obtain rfl := Finset.mem_singleton.1 ht
      have hslot : ((unused.start [⟨0⟩]).alloc reusedVariable).state.offset ⟨0⟩ = some 4 := by
        decide +kernel
      obtain rfl := Option.some_inj.1 (ho.symm.trans hslot)
      decide +kernel
    · rfl
  have hright := h Int Unit sums (fun _ _ => 0) _ _ henter
  -- twelve items stand in front of that PARM
  have hparm : ((unused.start [⟨0⟩]).alloc reusedVariable).items[12]?.map Item.uses =
      some [⟨0⟩] := by decide +kernel
  have huse := hright.uses hparm ⟨0⟩ (by decide)
  revert huse
  decide +kernel

/-! ## A variable that is tested after the registers have been given out -/

/-- `x = y; if (b)`, where `b`, `y` and `x` are 0 to 2. -/
def testedLate : AllocBlock where
  tacs := [liveTac 0 (.unary .assign ⟨2⟩ ⟨1⟩) [0, 1, 2]]
  liveIn := {⟨0⟩, ⟨1⟩}
  liveOut := [⟨1⟩, ⟨2⟩]
  var := some ⟨0⟩
  endKind := .BY_BEQZ
  plain := by decide
  outs := by decide
  ins := by decide

theorem testedLate_steady : (unused.start [⟨0⟩, ⟨1⟩]).Steady testedLate := by
  decide +kernel

theorem testedLate_enters (b y : Int) :
    Enters ((unused.start [⟨0⟩, ⟨1⟩]).alloc testedLate) testedLate
      (ofFrame [(⟨0⟩, 4, b), (⟨1⟩, 8, y)]).1 (ofFrame [(⟨0⟩, 4, b), (⟨1⟩, 8, y)]).2 := by
  constructor
  · intro t ht o ho
    obtain rfl | ht := Finset.mem_insert.1 ht
    · have hslot : ((unused.start [⟨0⟩, ⟨1⟩]).alloc testedLate).state.offset ⟨0⟩ = some 4 := by
        decide +kernel
      obtain rfl := Option.some_inj.1 (ho.symm.trans hslot)
      simp [ofFrame]
    · obtain rfl := Finset.mem_singleton.1 ht
      have hslot : ((unused.start [⟨0⟩, ⟨1⟩]).alloc testedLate).state.offset ⟨1⟩ = some 8 := by
        decide +kernel
      obtain rfl := Option.some_inj.1 (ho.symm.trans hslot)
      simp [ofFrame]
  · rfl

theorem operands_right_testedLate :
    OperandsRight ((unused.start [⟨0⟩, ⟨1⟩]).alloc testedLate) testedLate :=
  operands_right [⟨0⟩, ⟨1⟩] unused [] testedLate testedLate_steady

theorem block_end_iff_testedLate :
    EndRight ((unused.start [⟨0⟩, ⟨1⟩]).alloc testedLate) testedLate
        (runCode sums (fun _ _ => 0) (ofFrame [(⟨0⟩, 4, 0), (⟨1⟩, 8, 7)]).1
          (((unused.start [⟨0⟩, ⟨1⟩]).alloc testedLate).code
            ((unused.start [⟨0⟩, ⟨1⟩]).alloc testedLate).items ++
              ((unused.start [⟨0⟩, ⟨1⟩]).alloc testedLate).stores))
        (((unused.start [⟨0⟩, ⟨1⟩]).alloc testedLate).items.foldl (evalItem sums)
          (ofFrame [(⟨0⟩, 4, 0), (⟨1⟩, 8, 7)]).2) ↔
      ∀ v ∈ testedLate.reads, ((unused.start [⟨0⟩, ⟨1⟩]).looped testedLate).inReg v = true ∨
        ∀ x ∈ testedLate.liveOut, ((unused.start [⟨0⟩, ⟨1⟩]).looped testedLate).var 0 = some x →
          (((unused.start [⟨0⟩, ⟨1⟩]).alloc testedLate).items.foldl (evalItem sums)
            (ofFrame [(⟨0⟩, 4, 0), (⟨1⟩, 8, 7)]).2).env x =
          (((unused.start [⟨0⟩, ⟨1⟩]).alloc testedLate).items.foldl (evalItem sums)
            (ofFrame [(⟨0⟩, 4, 0), (⟨1⟩, 8, 7)]).2).env v :=
  block_end_iff sums (fun _ _ => 0) [⟨0⟩, ⟨1⟩] unused [] testedLate_steady
    (testedLate_enters 0 7)

/-- `b` comes into the register of `y` in front of the store of `y`. -/
theorem testedLate_wrong :
    Enters ((unused.start [⟨0⟩, ⟨1⟩]).alloc testedLate) testedLate
        (ofFrame [(⟨0⟩, 4, 0), (⟨1⟩, 8, 7)]).1 (ofFrame [(⟨0⟩, 4, 0), (⟨1⟩, 8, 7)]).2 ∧
      ¬ EndRight ((unused.start [⟨0⟩, ⟨1⟩]).alloc testedLate) testedLate
        (runCode sums (fun _ _ => 0) (ofFrame [(⟨0⟩, 4, 0), (⟨1⟩, 8, 7)]).1
          (((unused.start [⟨0⟩, ⟨1⟩]).alloc testedLate).code
            ((unused.start [⟨0⟩, ⟨1⟩]).alloc testedLate).items ++
              ((unused.start [⟨0⟩, ⟨1⟩]).alloc testedLate).stores))
        (((unused.start [⟨0⟩, ⟨1⟩]).alloc testedLate).items.foldl (evalItem sums)
          (ofFrame [(⟨0⟩, 4, 0), (⟨1⟩, 8, 7)]).2) := by
  refine ⟨testedLate_enters 0 7, ?_⟩
  intro h
  have hslot := h.slots ⟨1⟩ (by decide) 8 (by decide +kernel)
  revert hslot
  decide +kernel

end nehcpu.decaf
