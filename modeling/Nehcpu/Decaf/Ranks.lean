-- Classes with their ancestors: the numbers of their methods and of their variables along a chain, and
-- what a table of the methods holds that is filled from the root on.
import Mathlib.Data.List.Nodup
import Mathlib.Data.List.Pairwise
import Nehcpu.Decaf.BuildSym

namespace nehcpu.decaf

/-! ## Numbers in a row -/

/-- `n` numbers from `a` on. -/
def upFrom (a step : Int) : Nat → List Int
  | 0 => []
  | n + 1 => a :: upFrom (a + step) step n

theorem mem_upFrom {a step x : Int} {n : Nat} :
    x ∈ upFrom a step n ↔ ∃ i : Nat, i < n ∧ x = a + step * i := by
  induction n generalizing a with
  | zero => simp [upFrom]
  | succ n ih =>
    rw [upFrom, List.mem_cons, ih]
    constructor
    · rintro (rfl | ⟨i, hi, rfl⟩)
      · exact ⟨0, by omega, by simp⟩
      · refine ⟨i + 1, by omega, ?_⟩
        push_cast
        rw [Int.mul_add]
        omega
    · rintro ⟨i, hi, rfl⟩
      cases i with
      | zero => simp
      | succ i =>
        refine Or.inr ⟨i, by omega, ?_⟩
        push_cast
        rw [Int.mul_add]
        omega

theorem upFrom_pairwise {a step : Int} (hstep : 0 < step) (n : Nat) :
    (upFrom a step n).Pairwise fun x y => x + step ≤ y := by
  induction n generalizing a with
  | zero => exact .nil
  | succ n ih =>
    refine List.pairwise_cons.mpr ⟨fun x hx => ?_, ih⟩
    obtain ⟨i, -, rfl⟩ := mem_upFrom.mp hx
    have : 0 ≤ step * (i : Int) := Int.mul_nonneg (Int.le_of_lt hstep) (Int.natCast_nonneg i)
    omega

/-! ## Visible symbols -/

section

variable {scopes : ClassId → ClassScope} {c : ClassId} {ps cs : List ClassId}

theorem lookupVisible_own (hnames : ((scopes c).map Symbol.name).Nodup) {s : Symbol}
    (hs : s ∈ scopes c) : lookupVisible scopes s.name (c :: ps) = some s := by
  have hfind : (scopes c).find? (fun t => t.name = s.name) = some s := by
    cases hf : (scopes c).find? fun t => t.name = s.name with
    | none => simpa using List.find?_eq_none.mp hf s hs
    | some t =>
      have hname : t.name = s.name := by simpa using List.find?_some hf
      rw [List.inj_on_of_nodup_map hnames (List.mem_of_find?_eq_some hf) hs hname]
  rw [lookupVisible, hfind]

theorem lookupVisible_inherited {name : String} (h : ∀ s ∈ scopes c, s.name ≠ name) :
    lookupVisible scopes name (c :: ps) = lookupVisible scopes name ps := by
  have hfind : (scopes c).find? (fun t => t.name = name) = none := by
    simpa [List.find?_eq_none] using h
  rw [lookupVisible, hfind]

theorem name_of_lookupVisible {name : String} {s : Symbol}
    (h : lookupVisible scopes name cs = some s) : s.name = name := by
  induction cs with
  | nil => cases h
  | cons c cs ih =>
    rw [lookupVisible] at h
    split at h
    · next t hf =>
      obtain rfl := Option.some_inj.mp h
      simpa using List.find?_some hf
    · exact ih h

theorem mem_of_lookupVisible {name : String} {s : Symbol}
    (h : lookupVisible scopes name cs = some s) : ∃ c ∈ cs, s ∈ scopes c := by
  induction cs with
  | nil => cases h
  | cons c cs ih =>
    rw [lookupVisible] at h
    split at h
    · next t hf =>
      obtain rfl := Option.some_inj.mp h
      exact ⟨c, List.mem_cons_self, List.mem_of_find?_eq_some hf⟩
    · obtain ⟨d, hd, hs⟩ := ih h
      exact ⟨d, List.mem_cons_of_mem c hd, hs⟩

variable (scopes) in
/-- The names of each class differ, and what has the name of a symbol of an ancestor overrides a
method by a method. -/
def WellScoped : List ClassId → Prop
  | [] => True
  | c :: ps => ((scopes c).map Symbol.name).Nodup ∧
    (∀ s ∈ scopes c, ∀ t, lookupVisible scopes s.name ps = some t →
      ∃ f g, s = .func f ∧ t = .func g ∧ f.statik = false ∧ g.statik = false) ∧
    WellScoped ps

variable (scopes) in
/-- A method that is no static one, as it is seen from the first class of the chain. -/
def VisibleMethod (cs : List ClassId) (f : Function) : Prop :=
  lookupVisible scopes f.name cs = some (.func f) ∧ f.statik = false

/-- A visible method is one of the class itself, or one that the parent shows and that the class
leaves alone. -/
theorem visibleMethod_cons (h : WellScoped scopes (c :: ps)) {f : Function} :
    VisibleMethod scopes (c :: ps) f ↔ (.func f ∈ scopes c ∧ f.statik = false) ∨
      ((∀ s ∈ scopes c, s.name ≠ f.name) ∧ VisibleMethod scopes ps f) := by
  unfold VisibleMethod
  constructor
  · rintro ⟨hf, hstatik⟩
    by_cases hown : ∃ s ∈ scopes c, s.name = f.name
    · obtain ⟨s, hs, hname⟩ := hown
      rw [← hname, lookupVisible_own h.1 hs] at hf
      obtain rfl := Option.some_inj.mp hf
      exact Or.inl ⟨hs, hstatik⟩
    · have hno : ∀ s ∈ scopes c, s.name ≠ f.name := fun s hs hname => hown ⟨s, hs, hname⟩
      rw [lookupVisible_inherited hno] at hf
      exact Or.inr ⟨hno, hf, hstatik⟩
  · rintro (⟨hf, hstatik⟩ | ⟨hno, hf, hstatik⟩)
    · exact ⟨lookupVisible_own (s := .func f) h.1 hf, hstatik⟩
    · rw [lookupVisible_inherited hno]
      exact ⟨hf, hstatik⟩

end

/-! ## Numbered classes -/

def Symbol.isVar : Symbol → Bool
  | .var _ => true
  | .func _ => false

/-- A method that no ancestor has, and that is no static one. -/
def isNew (scopes : ClassId → ClassScope) (ps : List ClassId) : Symbol → Bool
  | .var _ => false
  | .func f => !f.statik && (lookupVisible scopes f.name ps).isNone

/-- Where a class goes on from its parent. -/
def continued (root : Int) (f : ClassId → Int) (ps : List ClassId) : Int := ps.head?.elim root f

/-- The orders of the symbols, and of each class the number of its methods, that of its variables and
the size of its objects. -/
structure Ranking where
  order : Symbol → Int
  funcs : ClassId → Int
  vars : ClassId → Int
  size : ClassId → Int

/-- The new methods and the variables of a class are numbered behind those of the parent, and a method
that overrides one takes its order. -/
structure RankedClass (scopes : ClassId → ClassScope) (k : Ranking) (c : ClassId)
    (ps : List ClassId) : Prop where
  news : ((scopes c).filter (isNew scopes ps)).map k.order =
    upFrom (continued 0 k.funcs ps) 1 ((scopes c).filter (isNew scopes ps)).length
  vars : ((scopes c).filter Symbol.isVar).map k.order =
    upFrom (continued 0 k.vars ps) 1 ((scopes c).filter Symbol.isVar).length
  overriding : ∀ f t, .func f ∈ scopes c → f.statik = false →
    lookupVisible scopes f.name ps = some t → k.order (.func f) = k.order t
  numNews : k.funcs c = continued 0 k.funcs ps + ((scopes c).filter (isNew scopes ps)).length
  numVars : k.vars c = continued 0 k.vars ps + ((scopes c).filter Symbol.isVar).length
  size : k.size c = continued 4 k.size ps + 4 * ((scopes c).filter Symbol.isVar).length

def Ranked (scopes : ClassId → ClassScope) (k : Ranking) : List ClassId → Prop
  | [] => True
  | c :: ps => RankedClass scopes k c ps ∧ Ranked scopes k ps

section

variable {scopes : ClassId → ClassScope} {k : Ranking} {c : ClassId} {ps cs : List ClassId}

theorem RankedClass.new_order (h : RankedClass scopes k c ps) {f : Function} (hf : .func f ∈ scopes c)
    (hnew : isNew scopes ps (.func f) = true) :
    continued 0 k.funcs ps ≤ k.order (.func f) ∧ k.order (.func f) < k.funcs c := by
  have hmem : k.order (.func f) ∈ ((scopes c).filter (isNew scopes ps)).map k.order :=
    List.mem_map_of_mem (List.mem_filter.mpr ⟨hf, hnew⟩)
  rw [h.news] at hmem
  obtain ⟨i, hi, heq⟩ := mem_upFrom.mp hmem
  have := h.numNews
  omega

theorem RankedClass.new_inj (h : RankedClass scopes k c ps) {s t : Symbol} (hs : s ∈ scopes c)
    (hsn : isNew scopes ps s = true) (ht : t ∈ scopes c) (htn : isNew scopes ps t = true)
    (heq : k.order s = k.order t) : s = t := by
  refine List.inj_on_of_nodup_map (f := k.order) ?_ (List.mem_filter.mpr ⟨hs, hsn⟩)
    (List.mem_filter.mpr ⟨ht, htn⟩) heq
  rw [h.news]
  exact (upFrom_pairwise (by omega) _).imp fun hxy => by omega

/-- A method of a class is new there, or overrides one that the parent shows. -/
theorem method_cases (h : WellScoped scopes (c :: ps)) {f : Function} (hf : .func f ∈ scopes c)
    (hstatik : f.statik = false) :
    isNew scopes ps (.func f) = true ∨
      ∃ g, lookupVisible scopes f.name ps = some (.func g) ∧ g.name = f.name ∧
        VisibleMethod scopes ps g := by
  cases hl : lookupVisible scopes f.name ps with
  | none => exact Or.inl (by simp [isNew, hstatik, hl])
  | some t =>
    obtain ⟨f', g, -, rfl, -, hg⟩ := h.2.1 _ hf t hl
    have hname : g.name = f.name := name_of_lookupVisible hl
    refine Or.inr ⟨g, rfl, hname, ?_, hg⟩
    rw [hname]
    exact hl

theorem continued_cons (root : Int) (f : ClassId → Int) : continued root f (c :: ps) = f c := rfl

theorem RankedClass.funcs_ge (h : RankedClass scopes k c ps) :
    continued 0 k.funcs ps ≤ k.funcs c := by
  have := h.numNews
  omega

theorem Ranked.funcs_nonneg (h : Ranked scopes k cs) : 0 ≤ continued 0 k.funcs cs := by
  induction cs with
  | nil => exact Int.le_refl 0
  | cons c ps ih => exact Int.le_trans (ih h.2) h.1.funcs_ge

/-- The orders of the visible methods are those of a table. -/
theorem Ranked.order_range (hw : WellScoped scopes cs) (h : Ranked scopes k cs) {f : Function}
    (hf : VisibleMethod scopes cs f) :
    0 ≤ k.order (.func f) ∧ k.order (.func f) < continued 0 k.funcs cs := by
  induction cs generalizing f with
  | nil => cases hf.1
  | cons c ps ih =>
    have hge := h.1.funcs_ge
    rw [continued_cons]
    rcases (visibleMethod_cons hw).mp hf with ⟨hmem, hstatik⟩ | ⟨-, hf⟩
    · rcases method_cases hw hmem hstatik with hnew | ⟨g, hg, -, hgv⟩
      · have hnum := h.1.new_order hmem hnew
        have hroot := h.2.funcs_nonneg
        omega
      · have hg' := ih hw.2.2 h.2 hgv
        rw [h.1.overriding f _ hmem hstatik hg]
        omega
    · have hf' := ih hw.2.2 h.2 hf
      omega

/-- Every number of the table is the order of a visible method. -/
theorem Ranked.order_surj (hw : WellScoped scopes cs) (h : Ranked scopes k cs) {i : Int}
    (hi : 0 ≤ i ∧ i < continued 0 k.funcs cs) :
    ∃ f, VisibleMethod scopes cs f ∧ k.order (.func f) = i := by
  induction cs with
  | nil =>
    have hlt : i < 0 := hi.2
    omega
  | cons c ps ih =>
    rw [continued_cons] at hi
    by_cases hold : i < continued 0 k.funcs ps
    · obtain ⟨g, hg, horder⟩ := ih hw.2.2 h.2 ⟨hi.1, hold⟩
      by_cases hown : ∃ s ∈ scopes c, s.name = g.name
      · obtain ⟨s, hs, hname⟩ := hown
        have hlook : lookupVisible scopes s.name ps = some (.func g) := by
          rw [hname]
          exact hg.1
        obtain ⟨f, g', rfl, hg', hstatik, -⟩ := hw.2.1 s hs _ hlook
        refine ⟨f, (visibleMethod_cons hw).mpr (Or.inl ⟨hs, hstatik⟩), ?_⟩
        rw [h.1.overriding f _ hs hstatik hlook, horder]
      · have hno : ∀ s ∈ scopes c, s.name ≠ g.name := fun s hs hname => hown ⟨s, hs, hname⟩
        exact ⟨g, (visibleMethod_cons hw).mpr (Or.inr ⟨hno, hg⟩), horder⟩
    · have hnum := h.1.numNews
      have hmem : i ∈ ((scopes c).filter (isNew scopes ps)).map k.order := by
        rw [h.1.news, mem_upFrom]
        exact ⟨(i - continued 0 k.funcs ps).toNat, by omega, by omega⟩
      obtain ⟨s, hs, rfl⟩ := List.mem_map.mp hmem
      obtain ⟨hs, hnew⟩ := List.mem_filter.mp hs
      cases s with
      | var v => cases hnew
      | func f =>
        have hstatik : f.statik = false := by
          simp only [isNew, Bool.and_eq_true, Bool.not_eq_eq_eq_not, Bool.not_true] at hnew
          exact hnew.1
        exact ⟨f, (visibleMethod_cons hw).mpr (Or.inl ⟨hs, hstatik⟩), rfl⟩

/-- No two visible methods have one order. -/
theorem Ranked.order_inj (hw : WellScoped scopes cs) (h : Ranked scopes k cs) {f g : Function}
    (hf : VisibleMethod scopes cs f) (hg : VisibleMethod scopes cs g)
    (heq : k.order (.func f) = k.order (.func g)) : f = g := by
  induction cs generalizing f g with
  | nil => cases hf.1
  | cons c ps ih =>
    -- a new method stands behind all that the parent shows
    have hnewOld : ∀ {f g : Function}, .func f ∈ scopes c → isNew scopes ps (.func f) = true →
        VisibleMethod scopes ps g → k.order (.func f) ≠ k.order (.func g) := by
      intro f g hf hnew hg heq
      have hfn := h.1.new_order hf hnew
      have hgn := h.2.order_range hw.2.2 hg
      omega
    -- and one that overrides takes the order of a method that is not left alone
    have hownOld : ∀ {f g : Function}, .func f ∈ scopes c → f.statik = false →
        (∀ s ∈ scopes c, s.name ≠ g.name) → VisibleMethod scopes ps g →
        k.order (.func f) ≠ k.order (.func g) := by
      intro f g hf hstatik hno hg heq
      rcases method_cases hw hf hstatik with hnew | ⟨f', hl, hname, hf'⟩
      · exact hnewOld hf hnew hg heq
      · rw [h.1.overriding f _ hf hstatik hl] at heq
        obtain rfl := ih hw.2.2 h.2 hf' hg heq
        exact hno _ hf hname.symm
    rcases (visibleMethod_cons hw).mp hf with ⟨hfm, hfs⟩ | ⟨hfno, hf⟩
    · rcases (visibleMethod_cons hw).mp hg with ⟨hgm, hgs⟩ | ⟨hgno, hg⟩
      · rcases method_cases hw hfm hfs with hfn | ⟨f', hfl, hfname, hf'⟩
        · rcases method_cases hw hgm hgs with hgn | ⟨g', hgl, -, hg'⟩
          · exact Symbol.func.inj (h.1.new_inj hfm hfn hgm hgn heq)
          · rw [h.1.overriding g _ hgm hgs hgl] at heq
            exact absurd heq (hnewOld hfm hfn hg')
        · rcases method_cases hw hgm hgs with hgn | ⟨g', hgl, hgname, hg'⟩
          · rw [h.1.overriding f _ hfm hfs hfl] at heq
            exact absurd heq.symm (hnewOld hgm hgn hf')
          · rw [h.1.overriding f _ hfm hfs hfl, h.1.overriding g _ hgm hgs hgl] at heq
            obtain rfl := ih hw.2.2 h.2 hf' hg' heq
            exact Symbol.func.inj (List.inj_on_of_nodup_map hw.1 hfm hgm (hfname.symm.trans hgname))
      · exact absurd heq (hownOld hfm hfs hgno hg)
    · rcases (visibleMethod_cons hw).mp hg with ⟨hgm, hgs⟩ | ⟨-, hg⟩
      · exact absurd heq.symm (hownOld hgm hgs hfno hf)
      · exact ih hw.2.2 h.2 hf hg heq

/-- A method of any class of the chain is visible, or something that overrides it is, with the same
order. -/
theorem Ranked.override (hw : WellScoped scopes cs) (h : Ranked scopes k cs) {d : ClassId}
    (hd : d ∈ cs) {f : Function} (hf : .func f ∈ scopes d) (hstatik : f.statik = false) :
    ∃ g, VisibleMethod scopes cs g ∧ g.name = f.name ∧ k.order (.func g) = k.order (.func f) := by
  induction cs with
  | nil => cases hd
  | cons c ps ih =>
    rcases List.mem_cons.mp hd with rfl | hd
    · exact ⟨f, (visibleMethod_cons hw).mpr (Or.inl ⟨hf, hstatik⟩), rfl, rfl⟩
    · obtain ⟨g, hg, hname, horder⟩ := ih hw.2.2 h.2 hd
      by_cases hown : ∃ s ∈ scopes c, s.name = g.name
      · obtain ⟨s, hs, hsname⟩ := hown
        have hlook : lookupVisible scopes s.name ps = some (.func g) := by
          rw [hsname]
          exact hg.1
        obtain ⟨g', -, rfl, -, hstatik', -⟩ := hw.2.1 s hs _ hlook
        refine ⟨g', (visibleMethod_cons hw).mpr (Or.inl ⟨hs, hstatik'⟩), hsname.trans hname, ?_⟩
        rw [h.1.overriding g' _ hs hstatik' hlook, horder]
      · have hno : ∀ s ∈ scopes c, s.name ≠ g.name := fun s hs hname => hown ⟨s, hs, hname⟩
        exact ⟨g, (visibleMethod_cons hw).mpr (Or.inr ⟨hno, hg⟩), hname, horder⟩

end

/-! ## Offsets -/

/-- The variables of a class stand behind those of the parent. -/
def Placed (scopes : ClassId → ClassScope) (k : Ranking) (offset : Symbol → Int) :
    List ClassId → Prop
  | [] => True
  | c :: ps => ((scopes c).filter Symbol.isVar).map offset =
      upFrom (continued 4 k.size ps) 4 ((scopes c).filter Symbol.isVar).length ∧
    Placed scopes k offset ps

section

variable {scopes : ClassId → ClassScope} {k : Ranking} {offset : Symbol → Int} {c : ClassId}
  {ps cs : List ClassId}

theorem RankedClass.size_ge (h : RankedClass scopes k c ps) :
    continued 4 k.size ps ≤ k.size c := by
  have := h.size
  omega

theorem Ranked.size_ge (h : Ranked scopes k cs) : 4 ≤ continued 4 k.size cs := by
  induction cs with
  | nil => exact Int.le_refl 4
  | cons c ps ih => exact Int.le_trans (ih h.2) h.1.size_ge

/-- The variables of a class itself. -/
theorem Placed.own_range (h : Ranked scopes k (c :: ps)) (hp : Placed scopes k offset (c :: ps))
    {v : Variable} (hv : .var v ∈ scopes c) :
    continued 4 k.size ps ≤ offset (.var v) ∧ offset (.var v) + 4 ≤ k.size c := by
  have hmem : offset (.var v) ∈ ((scopes c).filter Symbol.isVar).map offset :=
    List.mem_map_of_mem (List.mem_filter.mpr ⟨hv, rfl⟩)
  rw [hp.1] at hmem
  obtain ⟨i, hi, heq⟩ := mem_upFrom.mp hmem
  have hsize := h.1.size
  omega

theorem Placed.range (h : Ranked scopes k cs) (hp : Placed scopes k offset cs) {d : ClassId}
    (hd : d ∈ cs) {v : Variable} (hv : .var v ∈ scopes d) :
    4 ≤ offset (.var v) ∧ offset (.var v) + 4 ≤ continued 4 k.size cs := by
  induction cs with
  | nil => cases hd
  | cons c ps ih =>
    rw [continued_cons]
    rcases List.mem_cons.mp hd with rfl | hd
    · have hroot := h.2.size_ge
      have hown := Placed.own_range h hp hv
      omega
    · have hold := ih h.2 hp.2 hd
      have hge := h.1.size_ge
      omega

theorem Placed.apart (h : Ranked scopes k cs) (hp : Placed scopes k offset cs) {d e : ClassId}
    (hd : d ∈ cs) (he : e ∈ cs) {v w : Variable} (hv : .var v ∈ scopes d) (hw : .var w ∈ scopes e)
    (hne : v ≠ w) :
    offset (.var v) + 4 ≤ offset (.var w) ∨ offset (.var w) + 4 ≤ offset (.var v) := by
  induction cs with
  | nil => cases hd
  | cons c ps ih =>
    rcases List.mem_cons.mp hd with rfl | hd
    · have hvr := Placed.own_range h hp hv
      rcases List.mem_cons.mp he with rfl | he
      · have hpair : ((scopes e).filter Symbol.isVar).Pairwise fun s t =>
            offset s + 4 ≤ offset t ∨ offset t + 4 ≤ offset s := by
          rw [← List.pairwise_map (R := fun x y => x + 4 ≤ y ∨ y + 4 ≤ x), hp.1]
          exact (upFrom_pairwise (by omega) _).imp Or.inl
        have hsymm : Std.Symm fun s t => offset s + 4 ≤ offset t ∨ offset t + 4 ≤ offset s :=
          ⟨fun _ _ => Or.symm⟩
        exact hpair.forall (List.mem_filter.mpr ⟨hv, rfl⟩) (List.mem_filter.mpr ⟨hw, rfl⟩)
          fun heq => hne (Symbol.var.inj heq)
      · have hwr := Placed.range h.2 hp.2 he hw
        omega
    · have hvr := Placed.range h.2 hp.2 hd hv
      rcases List.mem_cons.mp he with rfl | he
      · have hwr := Placed.own_range h hp hw
        omega
      · exact ih h.2 hp.2 hd he

/-- A variable of any class of the chain is visible. -/
theorem var_visible (hw : WellScoped scopes cs) {d : ClassId} (hd : d ∈ cs) {v : Variable}
    (hv : .var v ∈ scopes d) : lookupVisible scopes v.name cs = some (.var v) := by
  induction cs with
  | nil => cases hd
  | cons c ps ih =>
    rcases List.mem_cons.mp hd with rfl | hd
    · exact lookupVisible_own (s := .var v) hw.1 hv
    · have hold := ih hw.2.2 hd
      rw [lookupVisible_inherited, hold]
      intro s hs hname
      rw [← hname] at hold
      obtain ⟨f, g, -, hg, -⟩ := hw.2.1 s hs _ hold
      cases hg

end

/-! ## The table of the methods -/

/-- Each method writes its label at its order. -/
def fillTable {lbl : Type} (functy : Function → Option lbl) (order : Symbol → Int) :
    List Symbol → List (Option lbl) → List (Option lbl)
  | [], entries => entries
  | .var _ :: syms, entries => fillTable functy order syms entries
  | .func f :: syms, entries =>
    if f.statik then fillTable functy order syms entries
    else fillTable functy order syms (entries.set (order (.func f)).toNat (functy f))

section

variable {lbl : Type} {functy : Function → Option lbl} {order : Symbol → Int} {syms : List Symbol}
  {entries : List (Option lbl)}

@[simp] theorem fillTable_length :
    (fillTable functy order syms entries).length = entries.length := by
  induction syms generalizing entries with
  | nil => rfl
  | cons s syms ih =>
    cases s with
    | var v => exact ih
    | func f =>
      rw [fillTable]
      split
      · exact ih
      · rw [ih, List.length_set]

theorem fillTable_append (syms' : List Symbol) :
    fillTable functy order (syms ++ syms') entries =
      fillTable functy order syms' (fillTable functy order syms entries) := by
  induction syms generalizing entries with
  | nil => rfl
  | cons s syms ih =>
    cases s with
    | var v => exact ih
    | func f =>
      rw [List.cons_append, fillTable, fillTable]
      split <;> exact ih

theorem fillTable_other {j : Nat} (h : ∀ f, .func f ∈ syms → f.statik = false →
    (order (.func f)).toNat ≠ j) : (fillTable functy order syms entries)[j]? = entries[j]? := by
  induction syms generalizing entries with
  | nil => rfl
  | cons s syms ih =>
    have hrest : ∀ f, .func f ∈ syms → f.statik = false → (order (.func f)).toNat ≠ j :=
      fun f hf => h f (List.mem_cons_of_mem s hf)
    cases s with
    | var v => exact ih hrest
    | func f =>
      rw [fillTable]
      split
      · exact ih hrest
      · next hstatik =>
        have hne := h f List.mem_cons_self (by simpa using hstatik)
        rw [ih hrest, List.getElem?_set_ne hne]

/-- The last one that writes at an order is the one that counts. -/
theorem fillTable_own {f : Function} (hf : .func f ∈ syms) (hstatik : f.statik = false)
    (hlt : (order (.func f)).toNat < entries.length)
    (h : ∀ g, .func g ∈ syms → g.statik = false → g ≠ f →
      (order (.func g)).toNat ≠ (order (.func f)).toNat) :
    (fillTable functy order syms entries)[(order (.func f)).toNat]? = some (functy f) := by
  induction syms generalizing entries with
  | nil => cases hf
  | cons s syms ih =>
    have hrest : ∀ g, .func g ∈ syms → g.statik = false → g ≠ f →
        (order (.func g)).toNat ≠ (order (.func f)).toNat :=
      fun g hg => h g (List.mem_cons_of_mem s hg)
    by_cases hlater : .func f ∈ syms
    · cases s with
      | var v => exact ih hlater hlt hrest
      | func g =>
        rw [fillTable]
        split
        · exact ih hlater hlt hrest
        · exact ih hlater (by rwa [List.length_set]) hrest
    · obtain rfl : .func f = s := (List.mem_cons.mp hf).resolve_right hlater
      rw [fillTable, if_neg (by simp [hstatik]), fillTable_other, List.getElem?_set_self hlt]
      intro g hg hgs
      exact hrest g hg hgs fun heq => hlater (heq ▸ hg)

end

section

variable {scopes : ClassId → ClassScope} {k : Ranking} {lbl : Type}
  {functy : Function → Option lbl} {n : Nat}
  {cs : List ClassId}

/-- A table that is filled from the root on holds the label of each visible method at its order. -/
theorem Ranked.fillTable (hw : WellScoped scopes cs) (h : Ranked scopes k cs)
    (hn : continued 0 k.funcs cs ≤ n) {f : Function} (hf : VisibleMethod scopes cs f) :
    (fillTable functy k.order (cs.reverse.flatMap scopes) (List.replicate n none))[
      (k.order (.func f)).toNat]? = some (functy f) := by
  induction cs generalizing f with
  | nil => cases hf.1
  | cons c ps ih =>
    have hrange := h.order_range hw hf
    rw [continued_cons] at hn hrange
    have hdiffer : ∀ g, .func g ∈ scopes c → g.statik = false → g ≠ f →
        (k.order (.func g)).toNat ≠ (k.order (.func f)).toNat := by
      intro g hg hgs hne heq
      have hgv : VisibleMethod scopes (c :: ps) g := (visibleMethod_cons hw).mpr (Or.inl ⟨hg, hgs⟩)
      have hgr := h.order_range hw hgv
      exact hne (h.order_inj hw hgv hf (by omega))
    rw [List.reverse_cons, List.flatMap_append, List.flatMap_singleton, fillTable_append]
    rcases (visibleMethod_cons hw).mp hf with ⟨hmem, hstatik⟩ | ⟨hno, hold⟩
    · exact fillTable_own hmem hstatik (by simp; omega) hdiffer
    · rw [fillTable_other]
      · exact ih hw.2.2 h.2 (Int.le_trans h.1.funcs_ge hn) hold
      · intro g hg hgs
        exact hdiffer g hg hgs fun heq => hno _ hg (by rw [heq]; rfl)

end

end nehcpu.decaf
