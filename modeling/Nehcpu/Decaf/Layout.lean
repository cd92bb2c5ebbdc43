-- `TransPass1` over the classes that `BuildSym` has accepted: the orders, the offsets and the virtual
-- tables that it leaves.
import Nehcpu.Decaf.BuildSymOk
import Nehcpu.Decaf.Ranks
import Nehcpu.Decaf.Translate

namespace nehcpu.decaf.TransPass1

open command

/-! ## The orders of one class -/

/-- `c` returns, and `Q` holds of the output. -/
def Passes {α : Type} (c : Pass α) (s : Output) (Q : α → Output → Prop) : Prop :=
  Cmd.Wp c Q (fun _ _ => False) False s

theorem Passes.bind {α β : Type} {c : Pass α} {f : α → Pass β} {s : Output} {Q : α → Output → Prop}
    {P : β → Output → Prop} (hc : Passes c s Q) (hf : ∀ a u, Q a u → Passes (f a) u P) :
    Passes (c >>= f) s P := by
  unfold Passes
  rw [Cmd.wp_bind]
  exact Cmd.Wp.mono hc hf (fun _ _ => id) id

theorem Passes.imp {α : Type} {c : Pass α} {s : Output} {Q P : α → Output → Prop}
    (h : Passes c s Q) (hq : ∀ a u, Q a u → P a u) : Passes c s P :=
  Cmd.Wp.mono h hq (fun _ _ => id) id

theorem passes_deref {α : Type} {x : Option α} {a : α} (h : x = some a) {s : Output}
    {Q : α → Output → Prop} (hq : Q a s) : Passes (deref x) s Q := by
  rw [h]
  exact hq

def Output.ranking (s : Output) : Ranking := ⟨s.order, s.numNonStaticFunc, s.numVar, s.size⟩

/-- What the loop of `resolveFieldOrder` has done when it is behind the symbols `syms` of `c`. -/
structure Ordered (r : BuildSym.Result) (c : ClassId) (ps : List ClassId) (syms : ClassScope)
    (s u : Output) : Prop where
  same : u = { s with
    order := u.order
    numNonStaticFunc := Function.update s.numNonStaticFunc c
      (s.numNonStaticFunc c + (syms.filter (isNew r.scopes ps)).length)
    numVar := Function.update s.numVar c (s.numVar c + (syms.filter Symbol.isVar).length)
    size := Function.update s.size c (s.size c + 4 * (syms.filter Symbol.isVar).length) }
  others : ∀ x, x ∉ syms → u.order x = s.order x
  news : (syms.filter (isNew r.scopes ps)).map u.order =
    upFrom (s.numNonStaticFunc c) 1 (syms.filter (isNew r.scopes ps)).length
  vars : (syms.filter Symbol.isVar).map u.order =
    upFrom (s.numVar c) 1 (syms.filter Symbol.isVar).length
  overriding : ∀ f t, .func f ∈ syms → f.statik = false →
    lookupVisible r.scopes f.name ps = some t → u.order (.func f) = s.order t

section

variable {r : BuildSym.Result} {c : ClassId} {ps : List ClassId} {syms : ClassScope} {s u : Output}

theorem ordered_nil : Ordered r c ps [] s s := by
  constructor
  · simp
  · exact fun _ _ => rfl
  · rfl
  · rfl
  · intro f t hf
    cases hf

/-- What is found in an ancestor is none of the symbols. -/
def Apart (r : BuildSym.Result) (ps : List ClassId) (syms : ClassScope) : Prop :=
  ∀ name t, lookupVisible r.scopes name ps = some t → t ∉ syms

theorem Apart.found {x : Symbol} (h : Apart r ps (x :: syms)) {name : String} {t : Symbol} {o : Int}
    (ht : lookupVisible r.scopes name ps = some t) :
    Function.update s.order x o t = s.order t :=
  Function.update_of_ne (fun heq => h name t ht (by simp [heq])) _ _

theorem Ordered.var {v : Variable} (hx : .var v ∉ syms) (hfound : Apart r ps (.var v :: syms))
    (h : Ordered r c ps syms { s with
      order := Function.update s.order (.var v) (s.numVar c)
      numVar := Function.update s.numVar c (s.numVar c + 1)
      size := Function.update s.size c (s.size c + WORD_SIZE) } u) :
    Ordered r c ps (.var v :: syms) s u := by
  have hvars : (Symbol.var v :: syms).filter Symbol.isVar = .var v :: syms.filter Symbol.isVar := rfl
  have hnews : (Symbol.var v :: syms).filter (isNew r.scopes ps) = syms.filter (isNew r.scopes ps) :=
    rfl
  constructor
  · have hnum (m : Nat) : s.numVar c + 1 + (m : Int) = s.numVar c + ((m + 1 : Nat) : Int) := by
      push_cast
      omega
    have hsize (m : Nat) :
        s.size c + (WORD_SIZE : Int) + 4 * m = s.size c + 4 * ((m + 1 : Nat) : Int) := by
      simp only [WORD_SIZE]
      push_cast
      omega
    rw [h.same, hvars, hnews]
    simp only [Function.update_idem, Function.update_self, List.length_cons, hnum, hsize]
  · intro y hy
    rw [List.mem_cons, not_or] at hy
    exact (h.others y hy.2).trans (Function.update_of_ne hy.1 _ _)
  · rw [hnews]
    exact h.news
  · have hrest := h.vars
    simp only [Function.update_self] at hrest
    have hown : u.order (.var v) = s.numVar c :=
      (h.others _ hx).trans (Function.update_self ..)
    rw [hvars, List.map_cons, hown, hrest]
    rfl
  · intro f t hf hstatik ht
    rw [h.overriding f t (by simpa using hf) hstatik ht]
    exact hfound.found ht

theorem Ordered.static {f : Function} (hstatik : f.statik = true) (h : Ordered r c ps syms s u) :
    Ordered r c ps (.func f :: syms) s u := by
  have hnews : (Symbol.func f :: syms).filter (isNew r.scopes ps) = syms.filter (isNew r.scopes ps) :=
    List.filter_cons_of_neg (by simp [isNew, hstatik])
  constructor
  · rw [hnews]
    exact h.same
  · exact fun y hy => h.others y (List.not_mem_of_not_mem_cons hy)
  · rw [hnews]
    exact h.news
  · exact h.vars
  · intro g t hg hg' ht
    refine h.overriding g t ((List.mem_cons.mp hg).resolve_left ?_) hg' ht
    intro heq
    obtain rfl := Symbol.func.inj heq
    rw [hstatik] at hg'
    cases hg'

theorem Ordered.new {f : Function} (hx : .func f ∉ syms) (hfound : Apart r ps (.func f :: syms))
    (hstatik : f.statik = false) (hnone : lookupVisible r.scopes f.name ps = none)
    (h : Ordered r c ps syms { s with
      order := Function.update s.order (.func f) (s.numNonStaticFunc c)
      numNonStaticFunc := Function.update s.numNonStaticFunc c (s.numNonStaticFunc c + 1) } u) :
    Ordered r c ps (.func f :: syms) s u := by
  have hnews : (Symbol.func f :: syms).filter (isNew r.scopes ps) =
      .func f :: syms.filter (isNew r.scopes ps) :=
    List.filter_cons_of_pos (by simp [isNew, hstatik, hnone])
  constructor
  · have hnum (m : Nat) :
        s.numNonStaticFunc c + 1 + (m : Int) = s.numNonStaticFunc c + ((m + 1 : Nat) : Int) := by
      push_cast
      omega
    have hvars : (Symbol.func f :: syms).filter Symbol.isVar = syms.filter Symbol.isVar := rfl
    rw [h.same, hnews, hvars]
    simp only [Function.update_idem, Function.update_self, List.length_cons, hnum]
  · intro y hy
    rw [List.mem_cons, not_or] at hy
    exact (h.others y hy.2).trans (Function.update_of_ne hy.1 _ _)
  · have hrest := h.news
    simp only [Function.update_self] at hrest
    have hown : u.order (.func f) = s.numNonStaticFunc c :=
      (h.others _ hx).trans (Function.update_self ..)
    rw [hnews, List.map_cons, hown, hrest]
    rfl
  · exact h.vars
  · intro g t hg hg' ht
    rcases List.mem_cons.mp hg with heq | hg
    · obtain rfl := Symbol.func.inj heq
      rw [hnone] at ht
      cases ht
    · rw [h.overriding g t hg hg' ht]
      exact hfound.found ht

theorem Ordered.override {f : Function} {t : Symbol} (hx : .func f ∉ syms)
    (hfound : Apart r ps (.func f :: syms)) (ht : lookupVisible r.scopes f.name ps = some t)
    (h : Ordered r c ps syms { s with order := Function.update s.order (.func f) (s.order t) } u) :
    Ordered r c ps (.func f :: syms) s u := by
  have hnews : (Symbol.func f :: syms).filter (isNew r.scopes ps) = syms.filter (isNew r.scopes ps) :=
    List.filter_cons_of_neg (by simp [isNew, ht])
  constructor
  · rw [hnews]
    exact h.same
  · intro y hy
    rw [List.mem_cons, not_or] at hy
    exact (h.others y hy.2).trans (Function.update_of_ne hy.1 _ _)
  · rw [hnews]
    exact h.news
  · exact h.vars
  · intro g t' hg hg' ht'
    rcases List.mem_cons.mp hg with heq | hg
    · obtain rfl := Symbol.func.inj heq
      obtain rfl := Option.some_inj.mp (ht.symm.trans ht')
      exact (h.others _ hx).trans (Function.update_self ..)
    · rw [h.overriding g t' hg hg' ht']
      exact hfound.found ht'

theorem each_orderSymbol (r : BuildSym.Result) (c : ClassId) (ps : List ClassId)
    {syms : ClassScope} (hnodup : syms.Nodup) (hfound : Apart r ps syms) (s : Output) :
    Passes (Cmd.each (orderSymbol r c ps) syms) s fun _ u => Ordered r c ps syms s u := by
  induction syms generalizing s with
  | nil => exact ordered_nil
  | cons x syms ih =>
    obtain ⟨hx, hsyms⟩ := List.nodup_cons.mp hnodup
    have hrest : Apart r ps syms := fun name t ht hmem =>
      hfound name t ht (List.mem_cons_of_mem x hmem)
    unfold Passes
    rw [Cmd.each, Cmd.wp_seq]
    unfold orderSymbol
    rw [Cmd.wp_modify]
    cases x with
    | var v => exact (ih hsyms hrest _).imp fun _ u hu => hu.var hx hfound
    | func f =>
      cases hstatik : f.statik with
      | true =>
        simp only [hstatik, if_true]
        exact (ih hsyms hrest _).imp fun _ u hu => hu.static hstatik
      | false =>
        cases ht : lookupVisible r.scopes f.name ps with
        | none =>
          simp only [hstatik, ht, Bool.false_eq_true, if_false]
          exact (ih hsyms hrest _).imp fun _ u hu => hu.new hx hfound hstatik ht
        | some t =>
          simp only [hstatik, ht, Bool.false_eq_true, if_false]
          exact (ih hsyms hrest _).imp fun _ u hu => hu.override hx hfound ht

end

/-! ## resolveFieldOrder -/

open BuildSym (BuiltRight getParent)

theorem wellScoped_of_built {program : Program} {r : BuildSym.Result} (hb : BuiltRight program r) :
    ∀ c < program.classes.length, WellScoped r.scopes (r.chain c) := by
  refine hb.chains.induction fun c hc ih => ?_
  have hover := hb.overrides c hc
  unfold BuildSym.OverrideOk at hover
  rw [hb.chains.eq c hc] at hover ⊢
  refine ⟨hb.nodup_names c, fun s hs t ht => ?_, ?_⟩
  · obtain ⟨f, g, hf, hg, hfs, hgs, -⟩ := hover s hs t ht
    exact ⟨f, g, hf, hg, hfs, hgs⟩
  · cases hp : getParent r.globals r.parentName c with
    | none => trivial
    | some p => exact ih p hp

/-- The class has its numbers. -/
def Resolved (s : Output) (c : ClassId) : Prop := 0 ≤ s.numNonStaticFunc c ∧ 0 ≤ s.numVar c

/-- The numbers of the class are the same. -/
def SameNumbers (s u : Output) (c : ClassId) : Prop :=
  u.numNonStaticFunc c = s.numNonStaticFunc c ∧ u.numVar c = s.numVar c ∧ u.size c = s.size c

/-- The classes that have numbers have them behind those of their parents. -/
structure RankInv (r : BuildSym.Result) (n : Nat) (s : Output) : Prop where
  closed : ∀ c p, Resolved s c → getParent r.globals r.parentName c = some p → Resolved s p
  ranked : ∀ c < n, Resolved s c →
    RankedClass r.scopes (Output.ranking s) c ((getParent r.globals r.parentName c).elim [] r.chain)

/-- `u` has numbers for `chain`, and nothing else is changed. -/
structure Resolves (r : BuildSym.Result) (chain : List ClassId) (s u : Output) : Prop where
  same : u = { s with
    order := u.order
    numNonStaticFunc := u.numNonStaticFunc
    numVar := u.numVar
    size := u.size }
  numbers : ∀ c, c ∉ chain ∨ Resolved s c → SameNumbers s u c
  orders : ∀ c, c ∉ chain ∨ Resolved s c → ∀ x ∈ r.scopes c, u.order x = s.order x

section

variable {program : Program} {r : BuildSym.Result} {s u v : Output} {c d p : ClassId}
  {cs ps : List ClassId}

theorem SameNumbers.resolved (h : SameNumbers s u c) : Resolved u c ↔ Resolved s c := by
  unfold Resolved
  rw [h.1, h.2.1]

theorem SameNumbers.trans (h : SameNumbers s u c) (h' : SameNumbers u v c) : SameNumbers s v c :=
  ⟨h'.1.trans h.1, h'.2.1.trans h.2.1, h'.2.2.trans h.2.2⟩

theorem resolves_refl : Resolves r cs s s :=
  ⟨rfl, fun _ _ => ⟨rfl, rfl, rfl⟩, fun _ _ _ _ => rfl⟩

theorem Resolves.trans (h : Resolves r ps s u) (h' : Resolves r cs u v)
    (hsub : ∀ c ∈ ps, c ∈ cs) : Resolves r cs s v := by
  have hfirst : ∀ c, c ∉ cs ∨ Resolved s c → c ∉ ps ∨ Resolved s c := fun c hc =>
    hc.imp_left fun hno hmem => hno (hsub c hmem)
  have hsecond : ∀ c, c ∉ cs ∨ Resolved s c → c ∉ cs ∨ Resolved u c := fun c hc =>
    hc.imp_right (h.numbers c (hfirst c hc)).resolved.mpr
  refine ⟨?_, fun c hc => ?_, fun c hc x hx => ?_⟩
  · rw [h'.same, h.same]
  · exact (h.numbers c (hfirst c hc)).trans (h'.numbers c (hsecond c hc))
  · rw [h'.orders c (hsecond c hc) x hx, h.orders c (hfirst c hc) x hx]

theorem RankInv.chain {n : Nat} (h : RankInv r n s)
    (hc : BuildSym.Chains n (getParent r.globals r.parentName) r.chain) :
    ∀ c < n, Resolved s c → ∀ d ∈ r.chain c, Resolved s d := by
  refine hc.induction fun c hlt ih hres d hd => ?_
  rw [hc.eq c hlt] at hd
  rcases List.mem_cons.mp hd with rfl | hd
  · exact hres
  · cases hp : getParent r.globals r.parentName c with
    | none =>
      rw [hp] at hd
      cases hd
    | some p =>
      rw [hp] at hd
      exact ih p hp (h.closed c p hres hp) d hd

/-- A class that is ranked in one output is so in another one that has the same numbers. -/
theorem RankedClass.congr {scopes : ClassId → ClassScope} {k k' : Ranking}
    (h : RankedClass scopes k c ps)
    (hfuncs : k'.funcs c = k.funcs c) (hvars : k'.vars c = k.vars c) (hsize : k'.size c = k.size c)
    (hparent : ∀ p, ps.head? = some p →
      k'.funcs p = k.funcs p ∧ k'.vars p = k.vars p ∧ k'.size p = k.size p)
    (hown : ∀ x ∈ scopes c, k'.order x = k.order x)
    (hfound : ∀ name t, lookupVisible scopes name ps = some t → k'.order t = k.order t) :
    RankedClass scopes k' c ps := by
  have hcf : continued 0 k'.funcs ps = continued 0 k.funcs ps := by
    unfold continued
    cases hp : ps.head? with
    | none => rfl
    | some p => exact (hparent p hp).1
  have hcv : continued 0 k'.vars ps = continued 0 k.vars ps := by
    unfold continued
    cases hp : ps.head? with
    | none => rfl
    | some p => exact (hparent p hp).2.1
  have hcs : continued 4 k'.size ps = continued 4 k.size ps := by
    unfold continued
    cases hp : ps.head? with
    | none => rfl
    | some p => exact (hparent p hp).2.2
  constructor
  · rw [hcf, ← h.news]
    exact List.map_congr_left fun x hx => hown x (List.mem_of_mem_filter hx)
  · rw [hcv, ← h.vars]
    exact List.map_congr_left fun x hx => hown x (List.mem_of_mem_filter hx)
  · intro f t hf hstatik ht
    rw [hown _ hf, hfound _ t ht]
    exact h.overriding f t hf hstatik ht
  · rw [hfuncs, hcf, h.numNews]
  · rw [hvars, hcv, h.numVars]
  · rw [hsize, hcs, h.size]

/-- The chain of a class behind it. -/
abbrev ancestors (r : BuildSym.Result) (c : ClassId) : List ClassId :=
  (getParent r.globals r.parentName c).elim [] r.chain

theorem head_ancestors {n : Nat}
    (hc : BuildSym.Chains n (getParent r.globals r.parentName) r.chain) :
    (ancestors r c).head? = getParent r.globals r.parentName c := by
  unfold ancestors
  cases hp : getParent r.globals r.parentName c with
  | none => rfl
  | some p =>
    show (r.chain p).head? = some p
    rw [hc.eq p (hc.lt c p hp)]
    rfl

theorem ancestors_of_mem_chain {n : Nat}
    (hc : BuildSym.Chains n (getParent r.globals r.parentName) r.chain) (hlt : c < n) :
    r.chain c = c :: ancestors r c := hc.eq c hlt

/-- What an ancestor shows is no symbol of the class. -/
theorem apart_of_built (hb : BuiltRight program r) (hc : c < program.classes.length) :
    Apart r (ancestors r c) (r.scopes c) := by
  intro name t ht hmem
  obtain ⟨e, he, hte⟩ := mem_of_lookupVisible ht
  obtain rfl := hb.disjoint hmem hte
  unfold ancestors at he
  cases hp : getParent r.globals r.parentName c with
  | none =>
    rw [hp] at he
    cases he
  | some p =>
    rw [hp] at he
    exact hb.chains.not_mem hc hp he

/-- `inherit` in the words of the ranks. -/
theorem inherit_eq (hb : BuiltRight program r) :
    inherit c (getParent r.globals r.parentName c) = Cmd.modify fun s => { s with
      numNonStaticFunc := Function.update s.numNonStaticFunc c
        (continued 0 s.numNonStaticFunc (ancestors r c))
      numVar := Function.update s.numVar c (continued 0 s.numVar (ancestors r c))
      size := Function.update s.size c (continued 4 s.size (ancestors r c)) } := by
  unfold inherit continued
  rw [head_ancestors hb.chains]
  rfl

/-- The numbers of one class, once its parent has some. -/
theorem passes_numbers (hb : BuiltRight program r) (hc : c < program.classes.length)
    (hinv : RankInv r program.classes.length s) (hnot : ¬ Resolved s c)
    (hparent : ∀ p, getParent r.globals r.parentName c = some p → Resolved s p) :
    Passes (do
      inherit c (getParent r.globals r.parentName c)
      Cmd.each (orderSymbol r c (ancestors r c)) (r.scopes c)) s
      fun _ u => Resolves r [c] s u ∧ RankInv r program.classes.length u ∧ Resolved u c := by
  have hapart := apart_of_built hb hc
  unfold Passes
  rw [Cmd.wp_bind, inherit_eq hb, Cmd.wp_modify]
  apply (each_orderSymbol r c _ (List.Nodup.of_map _ (hb.nodup_names c)) hapart _).imp
  intro _ u hu
  have hne : ∀ d, d ∉ [c] ∨ Resolved s d → d ≠ c := by
    rintro d (hd | hd) rfl
    · exact hd (List.mem_singleton.mpr rfl)
    · exact hnot hd
  have hother : ∀ d, d ≠ c → ∀ x ∈ r.scopes d, u.order x = s.order x := fun d hd x hx =>
    hu.others x fun hmem => hd (hb.disjoint hx hmem)
  have hsame : ∀ d, d ≠ c → SameNumbers s u d := by
    intro d hd
    rw [hu.same]
    simp only [SameNumbers, Function.update_of_ne hd, and_self]
  have hfuncs : u.numNonStaticFunc c = continued 0 s.numNonStaticFunc (ancestors r c) +
      ((r.scopes c).filter (isNew r.scopes (ancestors r c))).length := by
    rw [hu.same]
    simp only [Function.update_self]
  have hvars : u.numVar c = continued 0 s.numVar (ancestors r c) +
      ((r.scopes c).filter Symbol.isVar).length := by
    rw [hu.same]
    simp only [Function.update_self]
  have hsize : u.size c = continued 4 s.size (ancestors r c) +
      4 * ((r.scopes c).filter Symbol.isVar).length := by
    rw [hu.same]
    simp only [Function.update_self]
  -- the parent has its numbers from before
  have hup : ∀ p, (ancestors r c).head? = some p → SameNumbers s u p := by
    intro p hp
    rw [head_ancestors hb.chains] at hp
    exact hsame p (hne p (Or.inr (hparent p hp)))
  have hcontinued : continued 0 u.numNonStaticFunc (ancestors r c) =
        continued 0 s.numNonStaticFunc (ancestors r c) ∧
      continued 0 u.numVar (ancestors r c) = continued 0 s.numVar (ancestors r c) ∧
      continued 4 u.size (ancestors r c) = continued 4 s.size (ancestors r c) := by
    unfold continued
    cases hp : (ancestors r c).head? with
    | none => exact ⟨rfl, rfl, rfl⟩
    | some p => exact hup p hp
  have hnonneg : 0 ≤ continued 0 s.numNonStaticFunc (ancestors r c) ∧
      0 ≤ continued 0 s.numVar (ancestors r c) := by
    unfold continued
    rw [head_ancestors hb.chains]
    cases hp : getParent r.globals r.parentName c with
    | none => exact ⟨Int.le_refl 0, Int.le_refl 0⟩
    | some p => exact hparent p hp
  have hresolved : Resolved u c := by
    unfold Resolved
    omega
  have hfound : ∀ d < program.classes.length, ∀ name t,
      lookupVisible r.scopes name (ancestors r d) = some t →
      (∀ e ∈ ancestors r d, e ≠ c) → u.order t = s.order t := by
    intro d _ name t ht hd
    obtain ⟨e, he, hte⟩ := mem_of_lookupVisible ht
    exact hother e (hd e he) t hte
  refine ⟨⟨by rw [hu.same], fun d hd => hsame d (hne d hd), fun d hd => hother d (hne d hd)⟩,
    ⟨?_, ?_⟩, hresolved⟩
  · intro d q hd hq
    have hqs : Resolved s q := by
      by_cases hdc : d = c
      · rw [hdc] at hq
        exact hparent q hq
      · exact hinv.closed d q ((hsame d hdc).resolved.mp hd) hq
    exact (hsame q (hne q (Or.inr hqs))).resolved.mpr hqs
  · intro d hd hres
    by_cases hdc : d = c
    · subst hdc
      refine ⟨?_, ?_, ?_, ?_, ?_, ?_⟩
      · show _ = upFrom (continued 0 u.numNonStaticFunc (ancestors r d)) 1 _
        have hnews := hu.news
        simp only [Function.update_self] at hnews
        rw [hcontinued.1]
        exact hnews
      · show _ = upFrom (continued 0 u.numVar (ancestors r d)) 1 _
        have hvars := hu.vars
        simp only [Function.update_self] at hvars
        rw [hcontinued.2.1]
        exact hvars
      · intro f t hf hstatik ht
        exact (hu.overriding f t hf hstatik ht).trans (hu.others t (hapart _ t ht)).symm
      · show u.numNonStaticFunc d = continued 0 u.numNonStaticFunc (ancestors r d) + _
        rw [hcontinued.1, hfuncs]
      · show u.numVar d = continued 0 u.numVar (ancestors r d) + _
        rw [hcontinued.2.1, hvars]
      · show u.size d = continued 4 u.size (ancestors r d) + _
        rw [hcontinued.2.2, hsize]
    · have hds := (hsame d hdc).resolved.mp hres
      have hold : ∀ e ∈ r.chain d, e ≠ c := fun e he =>
        hne e (Or.inr (hinv.chain hb.chains d hd hds e he))
      have hanc : ∀ e ∈ ancestors r d, e ≠ c := by
        intro e he
        refine hold e ?_
        rw [ancestors_of_mem_chain hb.chains hd]
        exact List.mem_cons_of_mem d he
      obtain ⟨h1, h2, h3⟩ := hsame d hdc
      refine RankedClass.congr (hinv.ranked d hd hds) h1 h2 h3 ?_ (hother d hdc)
        fun name t ht => hfound d hd name t ht hanc
      intro p hp
      exact hsame p (hanc p (List.mem_of_head? hp))

theorem Resolves.mono (h : Resolves r ps s u) (hsub : ∀ c ∈ ps, c ∈ cs) : Resolves r cs s u :=
  h.trans resolves_refl hsub

/-- `resolveFieldOrder` of a class with its ancestors. -/
theorem passes_resolveFieldOrder (hb : BuiltRight program r) :
    ∀ c < program.classes.length, ∀ s, RankInv r program.classes.length s →
      Passes (resolveFieldOrder r (r.chain c)) s fun _ u => Resolves r (r.chain c) s u ∧
        RankInv r program.classes.length u ∧ Resolved u c := by
  refine hb.chains.induction fun c hc ih s hinv => ?_
  have hchain := ancestors_of_mem_chain hb.chains hc
  rw [hchain]
  unfold resolveFieldOrder Passes
  rw [Cmd.wp_bind, Cmd.wp_get, Cmd.wp_ite]
  split
  · next hres => exact ⟨resolves_refl, hinv, hres⟩
  · next hnot =>
    -- the ancestors first
    have hfirst : Passes (if (r.parentName c).isSome then do
          let p ← deref (ancestors r c).head?
          resolveFieldOrder r (ancestors r c)
          inherit c (some p)
        else inherit c none) s fun _ v => ∃ u, Resolves r (ancestors r c) s u ∧
          RankInv r program.classes.length u ∧
          (∀ p, getParent r.globals r.parentName c = some p → Resolved u p) ∧
          inherit c (getParent r.globals r.parentName c) u = .ok () v := by
      unfold Passes
      rw [Cmd.wp_ite]
      cases hp : getParent r.globals r.parentName c with
      | none =>
        have hname : ¬ (r.parentName c).isSome = true := by
          intro hsome
          have := hb.parents c hsome
          rw [hp] at this
          cases this
        rw [if_neg hname]
        exact ⟨s, resolves_refl, hinv, nofun, rfl⟩
      | some p =>
        have hname : (r.parentName c).isSome = true := by
          obtain ⟨name, hname, -⟩ := Option.bind_eq_some_iff.mp hp
          rw [hname]
          rfl
        have hanc : ancestors r c = r.chain p := by
          unfold ancestors
          rw [hp]
          rfl
        rw [if_pos hname, Cmd.wp_bind, head_ancestors hb.chains, hp, hanc]
        refine passes_deref rfl ?_
        rw [Cmd.wp_bind]
        apply (ih p hp s hinv).imp
        rintro _ u ⟨hres, hu, hpu⟩
        refine ⟨u, hres, hu, fun q hq => ?_, rfl⟩
        obtain rfl := Option.some_inj.mp hq
        exact hpu
    rw [Cmd.wp_bind]
    apply Cmd.Wp.mono hfirst _ (fun _ _ => id) id
    rintro _ v ⟨u, hres, hu, hparent, hv⟩
    have hnotMem : c ∉ ancestors r c := by
      unfold ancestors
      cases hp : getParent r.globals r.parentName c with
      | none => simp
      | some p => exact hb.chains.not_mem hc hp
    have hnotu : ¬ Resolved u c := fun h =>
      hnot ((hres.numbers c (Or.inl hnotMem)).resolved.mp h)
    have hnum := passes_numbers hb hc hu hnotu hparent
    unfold Passes at hnum
    rw [Cmd.wp_bind, Cmd.Wp, hv] at hnum
    apply Cmd.Wp.mono hnum _ (fun _ _ => id) id
    rintro _ w ⟨hw, hinvw, hresw⟩
    refine ⟨?_, hinvw, hresw⟩
    refine (hres.mono fun d hd => List.mem_cons_of_mem c hd).trans
      (hw.mono fun d hd => ?_) fun d hd => hd
    rw [List.mem_singleton.mp hd]
    exact List.mem_cons_self

end

/-! ## The methods -/

/-- The method has its label, and where it is no static one, its offset in the table. -/
def Translated (s : Output) (f : Function) : Prop :=
  (s.functy f).isSome = true ∧
    (f.statik = false → s.offset (.func f) = 8 + 4 * s.order (.func f))

/-- What a method leaves as it is: the numbers of the classes, and all that is known of their
symbols. -/
structure Visits (s u : Output) : Prop where
  same : u = { s with
    tr := u.tr
    order := u.order
    offset := u.offset
    temp := u.temp
    functy := u.functy }
  orders : ∀ x, (∀ v, x = .var v → v.definedIn = some .CLASS) → u.order x = s.order x
  offsets : ∀ v, v.definedIn = some .CLASS → u.offset (.var v) = s.offset (.var v)
  translated : ∀ f, Translated s f → Translated u f
  temps : ∀ loc, (s.temp loc).isSome = true → (u.temp loc).isSome = true

section

variable {r : BuildSym.Result} {s u v : Output}

theorem visits_refl : Visits s s :=
  ⟨rfl, fun _ _ => rfl, fun _ _ => rfl, fun _ h => h, fun _ h => h⟩

theorem Visits.trans (h : Visits s u) (h' : Visits u v) : Visits s v where
  same := by rw [h'.same, h.same]
  orders x hx := (h'.orders x hx).trans (h.orders x hx)
  offsets w hw := (h'.offsets w hw).trans (h.offsets w hw)
  translated f hf := h'.translated f (h.translated f hf)
  temps loc hloc := h'.temps loc (h.temps loc hloc)

theorem visits_emit {α : Type} (c : Trans α) (s : Output) :
    Passes (emit c) s fun _ u => Visits s u :=
  ⟨rfl, fun _ _ => rfl, fun _ _ => rfl, fun _ h => h, fun _ h => h⟩

/-- A formal is no variable of a class. -/
theorem passes_placeFormal {w : Variable} (hw : w.definedIn = some .FORMAL) (order : Nat)
    (s : Output) : Passes (placeFormal w order) s fun _ u => Visits s u ∧
      (u.temp w.loc).isSome = true := by
  unfold placeFormal
  apply (visits_emit createTempI4 s).bind
  intro t u hu
  unfold Passes
  rw [Cmd.wp_modify]
  refine ⟨hu.trans ⟨rfl, fun x hx => Function.update_of_ne ?_ _ _, fun v hv => ?_, fun f hf => ?_,
    fun loc hloc => ?_⟩, by simp⟩
  · rintro rfl
    have := hx w rfl
    rw [hw] at this
    cases this
  · refine Function.update_of_ne (fun heq => ?_) _ _
    obtain rfl := Symbol.var.inj heq
    rw [hw] at hv
    cases hv
  · refine ⟨hf.1, fun hstatik => ?_⟩
    have := hf.2 hstatik
    simpa [Function.update_of_ne] using this
  · by_cases heq : loc = w.loc
    · simp [heq]
    · simpa [Function.update_of_ne heq] using hloc

theorem passes_placeFormals {ds : List (VarDef Checked)}
    (hds : ∀ d ∈ ds, d.symbol.definedIn = some .FORMAL) (order : Nat) (s : Output) :
    Passes (placeFormals ds order) s fun _ u => Visits s u ∧
      ∀ d ∈ ds, (u.temp d.symbol.loc).isSome = true := by
  induction ds generalizing order s with
  | nil => exact ⟨visits_refl, by simp⟩
  | cons d ds ih =>
    rw [List.forall_mem_cons] at hds
    apply (passes_placeFormal hds.1 order s).bind
    rintro _ u ⟨hu, htemp⟩
    apply (ih hds.2 (order + 1) u).imp
    rintro _ v ⟨hv, htemps⟩
    refine ⟨hu.trans hv, ?_⟩
    rw [List.forall_mem_cons]
    exact ⟨hv.temps _ htemp, htemps⟩

theorem passes_createFuncty {f : Function} (hf : f.definedIn.isSome = true) (s : Output) :
    Passes (createFuncty r f) s fun _ u => u.offset = s.offset ∧ u.order = s.order ∧ Visits s u ∧
      (u.functy f).isSome = true := by
  obtain ⟨c, hc⟩ := Option.isSome_iff_exists.mp hf
  have hcheck : Passes (if r.main = some f then pure ()
      else do
        let _ ← deref f.definedIn) s fun _ u => s = u := by
    unfold Passes
    rw [Cmd.wp_ite]
    split
    · rfl
    · rw [Cmd.wp_bind, hc]
      exact rfl
  apply hcheck.bind
  rintro _ _ rfl
  have hlabel : Passes (emit createLabel) s fun _ u => u = { s with tr := u.tr } := rfl
  apply hlabel.bind
  intro label u hu
  unfold Passes
  rw [Cmd.wp_modify, hu]
  refine ⟨rfl, rfl, ⟨rfl, fun _ _ => rfl, fun _ _ => rfl, fun g hg => ⟨?_, hg.2⟩, fun _ h => h⟩, ?_⟩
  · by_cases hgf : g = f
    · simp [hgf]
    · simpa [Function.update_of_ne hgf] using hg.1
  · simp

/-- What a method that stands in a class leaves: its label, and the temps of `this` and of the
formals. -/
structure MethodVisited (m : MethodDef Checked) (u : Output) : Prop where
  translated : Translated u m.symbol
  temps : ∀ loc ∈ m.placed, (u.temp loc).isSome = true

theorem MethodVisited.visits {m : MethodDef Checked} (h : MethodVisited m s) (hu : Visits s u) :
    MethodVisited m u :=
  ⟨hu.translated _ h.translated, fun loc hloc => hu.temps loc (h.temps loc hloc)⟩

theorem passes_visitMethodDef {c : ClassId} {m : MethodDef Built} (hm : BuildSym.MethodBuilt c m)
    (body : Stmts Checked) (s : Output) :
    Passes (visitMethodDef r (TypeCheck.checkedMethod m body)) s
      fun _ u => Visits s u ∧ MethodVisited (TypeCheck.checkedMethod m body) u := by
  have hformals : ∀ d ∈ (TypeCheck.checkedMethod m body).formals,
      d.symbol.definedIn = some .FORMAL := by
    intro d hd
    obtain ⟨e, he, rfl⟩ := List.mem_map.mp hd
    exact hm.formals e he
  -- the formals are placed under the locations of their definitions
  have hplaced : ∀ u : Output, (∀ d ∈ (TypeCheck.checkedMethod m body).formals,
      (u.temp d.symbol.loc).isSome = true) →
      ∀ loc ∈ m.formals.map VarDef.loc, (u.temp loc).isSome = true := by
    intro u hu loc hloc
    obtain ⟨d, hd, rfl⟩ := List.mem_map.mp hloc
    rw [← hm.ok.symbols d hd]
    exact hu _ (List.mem_map_of_mem hd)
  have hslot : Passes (if m.symbol.statik then pure ()
      else .modify fun s => { s with
        offset := Function.update s.offset (.func m.symbol)
          (2 * POINTER_SIZE + s.order (.func m.symbol) * POINTER_SIZE) }) s
      fun _ u => Visits s u ∧ u.order = s.order ∧ (m.symbol.statik = false →
        u.offset (.func m.symbol) = 8 + 4 * u.order (.func m.symbol)) := by
    unfold Passes
    rw [Cmd.wp_ite]
    split
    · next hstatik =>
      rw [Cmd.wp_pure]
      refine ⟨visits_refl, rfl, fun h => ?_⟩
      rw [hstatik] at h
      cases h
    · rw [Cmd.wp_modify]
      refine ⟨⟨rfl, fun _ _ => rfl, fun v _ => ?_, fun f hf => ⟨hf.1, fun hstatik => ?_⟩,
        fun _ h => h⟩, rfl, fun _ => ?_⟩
      · simp
      · by_cases hfm : f = m.symbol
        · simp only [hfm, Function.update_self, POINTER_SIZE]
          omega
        · have hne : Symbol.func f ≠ .func m.symbol := fun h => hfm (Symbol.func.inj h)
          simp only [Function.update_of_ne hne]
          exact hf.2 hstatik
      · simp only [Function.update_self, POINTER_SIZE]
        omega
  unfold visitMethodDef
  apply hslot.bind
  rintro _ u₁ ⟨hv₁, -, hoff⟩
  apply (passes_createFuncty hm.ok.declared u₁).bind
  rintro _ u₂ ⟨hoffset, horder, hv₂, hsome⟩
  have htrans : Translated u₂ m.symbol := by
    refine ⟨hsome, fun hstatik => ?_⟩
    rw [hoffset, horder]
    exact hoff hstatik
  have hv := hv₁.trans hv₂
  unfold Passes
  rw [Cmd.wp_ite]
  split
  · next hstatik =>
    have hstatik' : m.statik = true := hm.ok.statik.symm.trans hstatik
    apply (passes_placeFormals hformals 0 u₂).imp
    rintro _ w ⟨hw, htemps⟩
    refine ⟨hv.trans hw, hw.translated _ htrans, ?_⟩
    rw [TypeCheck.checkedMethod_placed, MethodDef.placed, if_pos hstatik']
    exact hplaced w htemps
  · next hstatik =>
    have hstatik' : m.statik = false := by
      rw [← hm.ok.statik]
      exact Bool.eq_false_iff.mpr hstatik
    obtain ⟨this, hthis, hloc⟩ := hm.this hstatik'
    have hdefined := (hm.ok.formals this (List.mem_of_find?_eq_some hthis)).1
    rw [Cmd.wp_bind]
    refine passes_deref hthis ?_
    rw [Cmd.wp_bind]
    apply (passes_placeFormal hdefined 0 u₂).imp
    rintro _ u₃ ⟨hv₃, htemp⟩
    apply (passes_placeFormals hformals 1 u₃).imp
    rintro _ w ⟨hw, htemps⟩
    refine ⟨hv.trans (hv₃.trans hw), hw.translated _ (hv₃.translated _ htrans), ?_⟩
    rw [TypeCheck.checkedMethod_placed, MethodDef.placed, if_neg (by simp [hstatik']),
      List.singleton_append, List.forall_mem_cons, ← hloc]
    exact ⟨hw.temps _ htemp, hplaced w htemps⟩

end

/-! ## The checked classes -/

/-- A field that `TypeCheck` has passed. -/
def FieldChecked : Field Built → Field Checked → Prop
  | .var d, .var d' => d' = TypeCheck.checkVarDef d
  | .method m, .method m' => ∃ body, m' = TypeCheck.checkedMethod m body
  | _, _ => False

structure ClassChecked (cd : ClassDef Built) (cd' : ClassDef Checked) : Prop where
  name : cd'.name = cd.name
  parent : cd'.parent = cd.parent
  fields : List.Forall₂ FieldChecked cd.fields cd'.fields

section

variable {r : BuildSym.Result}

theorem wp_any {σ ε α : Type} (c : Cmd σ ε α) (s : σ) :
    Cmd.Wp c (fun _ _ => True) (fun _ _ => True) True s := by
  unfold Cmd.Wp
  cases c s <;> trivial

theorem visitFields_checked (c : ClassId) (fields : List (Field Built)) (es : List DecafError) :
    Cmd.Wp (TypeCheck.visitFields r c fields) (fun xs _ => List.Forall₂ FieldChecked fields xs)
      (fun _ _ => True) True es := by
  induction fields generalizing es with
  | nil => exact .nil
  | cons field fields ih =>
    cases field with
    | var d =>
      rw [TypeCheck.visitFields, Cmd.wp_bind]
      apply Cmd.Wp.mono (ih es) _ (fun _ _ => id) id
      intro xs t hxs
      exact .cons rfl hxs
    | method m =>
      rw [TypeCheck.visitFields, Cmd.wp_bind, TypeCheck.visitMethodDef, Cmd.wp_bind]
      apply Cmd.Wp.mono (wp_any _ es) _ (fun _ _ => id) id
      intro body t _
      rw [Cmd.wp_pure, Cmd.wp_bind]
      apply Cmd.Wp.mono (ih t) _ (fun _ _ => id) id
      intro xs t hxs
      exact .cons ⟨body, rfl⟩ hxs

theorem visitClassDefs_checked (cds : List (ClassDef Built)) (c : ClassId) (es : List DecafError) :
    Cmd.Wp (TypeCheck.visitClassDefs r cds c) (fun xs _ => List.Forall₂ ClassChecked cds xs)
      (fun _ _ => True) True es := by
  induction cds generalizing c es with
  | nil => exact .nil
  | cons cd cds ih =>
    rw [TypeCheck.visitClassDefs, Cmd.wp_bind]
    apply Cmd.Wp.mono (visitFields_checked c cd.fields es) _ (fun _ _ => id) id
    intro fields t hfields
    rw [Cmd.wp_bind]
    apply Cmd.Wp.mono (ih (c + 1) t) _ (fun _ _ => id) id
    intro xs t hxs
    exact .cons ⟨rfl, rfl, hfields⟩ hxs

theorem classes_checked {cds : List (ClassDef Checked)} {es es' : List DecafError}
    (h : TypeCheck.visitTopLevel r es = .ok cds es') : List.Forall₂ ClassChecked r.classes cds := by
  have hwp := visitClassDefs_checked (r := r) r.classes 0 es
  unfold TypeCheck.visitTopLevel at h
  rw [Cmd.Wp, h] at hwp
  exact hwp

end

/-- A class as the pass finds it: what its fields declare stands in its scope. -/
structure ClassReady (r : BuildSym.Result) (c : ClassId) (cd : ClassDef Checked) : Prop where
  scope : cd.fields.map BuildSym.declares = r.scopes c
  methods : ∀ m', .method m' ∈ cd.fields →
    ∃ m body, BuildSym.MethodBuilt c m ∧ m' = TypeCheck.checkedMethod m body
  parent : cd.parent = r.parentName c

theorem declares_checked {ys : List (Field Built)} {xs : List (Field Checked)}
    (h : List.Forall₂ FieldChecked ys xs) :
    xs.map BuildSym.declares = ys.map BuildSym.declares := by
  induction h with
  | nil => rfl
  | @cons y x ys xs hyx _ ih =>
    rw [List.map_cons, List.map_cons, ih]
    congr 1
    cases y with
    | var d =>
      cases x with
      | method m => exact hyx.elim
      | var d' =>
        obtain rfl := hyx
        rfl
    | method m =>
      cases x with
      | var d => exact hyx.elim
      | method m' =>
        obtain ⟨body, rfl⟩ := hyx
        rfl

theorem method_of_checked {globals : Globals} {c : ClassId} {zs : List (Field Parsed)}
    {ys : List (Field Built)} {xs : List (Field Checked)}
    (hb : List.Forall₂ (BuildSym.FieldBuilt globals c) zs ys) (h : List.Forall₂ FieldChecked ys xs)
    {m' : MethodDef Checked} (hm' : .method m' ∈ xs) :
    ∃ m body, BuildSym.MethodBuilt c m ∧ m' = TypeCheck.checkedMethod m body := by
  induction h generalizing zs with
  | nil => cases hm'
  | @cons y x ys xs hyx _ ih =>
    cases hb with
    | @cons z _ zs _ hzy hzs =>
      rcases List.mem_cons.mp hm' with rfl | hm'
      · cases y with
        | var d => exact hyx.elim
        | method m =>
          obtain ⟨body, rfl⟩ := hyx
          cases z with
          | var d => exact hzy.elim
          | method _ => exact ⟨m, body, hzy, rfl⟩
      · exact ih hzs hm'

theorem classReady_of_checked {program : Program} {r : BuildSym.Result}
    (hb : BuiltRight program r) {cds : List (ClassDef Checked)} {es es' : List DecafError}
    (h : TypeCheck.visitTopLevel r es = .ok cds es') :
    cds.length = program.classes.length ∧ ∀ c cd, cds[c]? = some cd → ClassReady r c cd := by
  have hchecked := classes_checked h
  have hlen := hchecked.length_eq
  refine ⟨hlen.symm.trans hb.length, fun c cd hcd => ?_⟩
  obtain ⟨hlt, rfl⟩ := List.getElem?_eq_some_iff.mp hcd
  have hlt' : c < r.classes.length := hlen ▸ hlt
  have hclass := hchecked.get hlt' hlt
  have hp := List.getElem?_eq_getElem (hb.length ▸ hlt')
  obtain ⟨hbuilt, hscope, -⟩ := hb.built c _ _ hp (List.getElem?_eq_getElem hlt')
  refine ⟨?_, fun m' hm' => method_of_checked hbuilt.fields hclass.fields hm', ?_⟩
  · rw [hscope]
    exact declares_checked hclass.fields
  · have hparent := hclass.parent.trans hbuilt.parent
    rw [hb.parentName, BuildSym.parentNames, hp]
    exact hparent

/-! ## The first loop -/

section

variable {program : Program} {r : BuildSym.Result} {s u : Output} {c : ClassId}

theorem passes_visitFields (hb : BuiltRight program r) {fields : List (Field Checked)}
    (hfields : ∀ m', .method m' ∈ fields →
      ∃ m body, BuildSym.MethodBuilt c m ∧ m' = TypeCheck.checkedMethod m body) (s : Output) :
    Passes (Cmd.each (visitField r) fields) s fun _ u => Visits s u ∧
      ∀ m', .method m' ∈ fields → MethodVisited m' u := by
  induction fields generalizing s with
  | nil => exact ⟨visits_refl, nofun⟩
  | cons field fields ih =>
    have hrest : ∀ m', .method m' ∈ fields →
        ∃ m body, BuildSym.MethodBuilt c m ∧ m' = TypeCheck.checkedMethod m body :=
      fun m' hm' => hfields m' (List.mem_cons_of_mem field hm')
    unfold Passes
    rw [Cmd.each, Cmd.wp_seq]
    cases field with
    | var d =>
      apply (ih hrest s).imp
      rintro _ u ⟨hu, hall⟩
      refine ⟨hu, fun m' hm' => hall m' ?_⟩
      simpa using hm'
    | method m' =>
      obtain ⟨m, body, hm, rfl⟩ := hfields m' List.mem_cons_self
      apply (passes_visitMethodDef hm body s).imp
      rintro _ u ⟨hu, htrans⟩
      apply (ih hrest u).imp
      rintro _ v ⟨hv, hall⟩
      refine ⟨hu.trans hv, fun m' hm' => ?_⟩
      rcases List.mem_cons.mp hm' with heq | hm'
      · obtain rfl := Field.method.inj heq
        exact htrans.visits hv
      · exact hall m' hm'

/-- The variables of a class get their offsets one behind the other. -/
theorem passes_placeVars {vs : List Variable} (hnodup : vs.Nodup) (a : Int) (s : Output) :
    Passes (placeVars vs a) s fun _ u => u = { s with offset := u.offset } ∧
      (∀ x, x ∉ vs.map Symbol.var → u.offset x = s.offset x) ∧
      (vs.map Symbol.var).map u.offset = upFrom a 4 vs.length := by
  induction vs generalizing a s with
  | nil => exact ⟨rfl, fun _ _ => rfl, rfl⟩
  | cons v vs ih =>
    obtain ⟨hv, hvs⟩ := List.nodup_cons.mp hnodup
    unfold placeVars Passes
    rw [Cmd.wp_bind, Cmd.wp_modify]
    apply (ih hvs _ _).imp
    rintro _ u ⟨hsame, hother, hplaced⟩
    have hnot : Symbol.var v ∉ vs.map Symbol.var := by
      intro hmem
      obtain ⟨w, hw, heq⟩ := List.mem_map.mp hmem
      exact hv (Symbol.var.inj heq ▸ hw)
    refine ⟨by rw [hsame], fun x hx => ?_, ?_⟩
    · rw [List.map_cons, List.mem_cons, not_or] at hx
      exact (hother x hx.2).trans (Function.update_of_ne hx.1 _ _)
    · have hown : u.offset (.var v) = a := (hother _ hnot).trans (Function.update_self ..)
      rw [List.map_cons, List.map_cons, hown, hplaced]
      rfl

theorem vars_of_fields (fields : List (Field Checked)) :
    (fields.filterMap varOf).map Symbol.var =
      (fields.map BuildSym.declares).filter Symbol.isVar := by
  induction fields with
  | nil => rfl
  | cons field fields ih =>
    cases field with
    | var d =>
      rw [List.filterMap_cons, List.map_cons, List.filter_cons]
      simp only [varOf, BuildSym.declares, Symbol.isVar, if_true, List.map_cons, ih]
    | method m =>
      rw [List.filterMap_cons, List.map_cons, List.filter_cons]
      simp only [varOf, BuildSym.declares, Symbol.isVar, Bool.false_eq_true, if_false, ih]

/-- What holds when the classes below `i` have been visited. -/
structure Phase (r : BuildSym.Result) (n i : Nat) (s : Output) : Prop where
  ranks : RankInv r n s
  resolved : ∀ c < i, Resolved s c
  placed : ∀ c < i, ((r.scopes c).filter Symbol.isVar).map s.offset =
    upFrom (continued 4 s.size (ancestors r c)) 4 ((r.scopes c).filter Symbol.isVar).length
  translated : ∀ c < i, ∀ f, .func f ∈ r.scopes c → Translated s f
  fresh : ∀ c, s.vtable c = none

theorem RankInv.congr {n : Nat} (h : RankInv r n s)
    (hf : u.numNonStaticFunc = s.numNonStaticFunc) (hv : u.numVar = s.numVar)
    (hs : u.size = s.size) (ho : ∀ c, ∀ x ∈ r.scopes c, u.order x = s.order x) :
    RankInv r n u := by
  have hres : ∀ c, Resolved u c ↔ Resolved s c := by
    intro c
    unfold Resolved
    rw [hf, hv]
  refine ⟨fun c p hc hp => (hres p).mpr (h.closed c p ((hres c).mp hc) hp), fun c hc hcr => ?_⟩
  have hnum : ∀ d, SameNumbers s u d := by
    intro d
    unfold SameNumbers
    rw [hf, hv, hs]
    exact ⟨rfl, rfl, rfl⟩
  refine RankedClass.congr (h.ranked c hc ((hres c).mp hcr)) (hnum c).1 (hnum c).2.1 (hnum c).2.2
    (fun p _ => hnum p) (ho c) fun name t ht => ?_
  obtain ⟨d, -, hd⟩ := mem_of_lookupVisible ht
  exact ho d t hd

/-- The symbols of a class are unlike formals. -/
theorem class_symbol (hb : BuiltRight program r) {x : Symbol} (hx : x ∈ r.scopes c) :
    ∀ v, x = .var v → v.definedIn = some .CLASS := by
  rintro v rfl
  exact (hb.var hx).1

theorem translated_congr {f : Function} (h : Translated s f) (hf : u.functy f = s.functy f)
    (ho : u.offset (.func f) = s.offset (.func f)) (hr : u.order (.func f) = s.order (.func f)) :
    Translated u f := by
  unfold Translated
  rw [hf, ho, hr]
  exact h

/-- What was known of the classes below stays when the numbers of another one are given. -/
theorem Phase.resolves {n i : Nat} (h : Phase r n i s) {chain : List ClassId}
    (hu : Resolves r chain s u) (hinv : RankInv r n u)
    (hc : BuildSym.Chains n (getParent r.globals r.parentName) r.chain) : Phase r n i u := by
  refine ⟨hinv, fun d hd => ?_, fun d hd => ?_, fun d hd f hf => ?_, fun d => ?_⟩
  · exact (hu.numbers d (Or.inr (h.resolved d hd))).resolved.mpr (h.resolved d hd)
  · have hsize : continued 4 u.size (ancestors r d) = continued 4 s.size (ancestors r d) := by
      unfold continued
      rw [head_ancestors hc]
      cases hp : getParent r.globals r.parentName d with
      | none => rfl
      | some p =>
        exact (hu.numbers p (Or.inr (h.ranks.closed d p (h.resolved d hd) hp))).2.2
    have hoffset : u.offset = s.offset := by rw [hu.same]
    rw [hsize, hoffset]
    exact h.placed d hd
  · exact translated_congr (h.translated d hd f hf) (by rw [hu.same]) (by rw [hu.same])
      (hu.orders d (Or.inr (h.resolved d hd)) _ hf)
  · rw [hu.same]
    exact h.fresh d

theorem Phase.visits (hb : BuiltRight program r) {n i : Nat} (h : Phase r n i s)
    (hu : Visits s u) : Phase r n i u := by
  have horders : ∀ c, ∀ x ∈ r.scopes c, u.order x = s.order x := fun c x hx =>
    hu.orders x (class_symbol hb hx)
  have hsize : u.size = s.size := by rw [hu.same]
  refine ⟨h.ranks.congr (by rw [hu.same]) (by rw [hu.same]) hsize horders, fun c hc => ?_,
    fun c hc => ?_, fun c hc f hf => hu.translated f (h.translated c hc f hf), fun c => ?_⟩
  · have := h.resolved c hc
    unfold Resolved at this ⊢
    rw [hu.same]
    exact this
  · rw [hsize, ← h.placed c hc]
    refine List.map_congr_left fun x hx => ?_
    obtain ⟨hx, hvar⟩ := List.mem_filter.mp hx
    cases x with
    | func f => cases hvar
    | var v => exact hu.offsets v (hb.var hx).1
  · rw [hu.same]
    exact h.fresh c

/-- The variables of a class stand in its text in the order of their numbers. -/
theorem vars_sorted (hrank : RankedClass r.scopes (Output.ranking s) c (ancestors r c))
    {cd : ClassDef Checked} (hcd : ClassReady r c cd) :
    ((cd.fields.filterMap varOf).insertionSort fun v w => s.order (.var v) ≤ s.order (.var w)) =
      cd.fields.filterMap varOf := by
  apply List.Pairwise.insertionSort_eq
  have hvars := hrank.vars
  rw [← hcd.scope, ← vars_of_fields] at hvars
  have hpair : (((cd.fields.filterMap varOf).map Symbol.var).map s.order).Pairwise fun x y =>
      x + 1 ≤ y := by
    have : ((cd.fields.filterMap varOf).map Symbol.var).map s.order = _ := hvars
    rw [this]
    exact upFrom_pairwise (by omega) _
  rw [List.pairwise_map, List.pairwise_map] at hpair
  exact hpair.imp fun h => by omega

/-- The temps of `this` and of the formals of the methods in a class. -/
def TempsMade (cd : ClassDef Checked) (s : Output) : Prop :=
  ∀ m, .method m ∈ cd.fields → ∀ loc ∈ m.placed, (s.temp loc).isSome = true

theorem passes_visitClassDef (hb : BuiltRight program r) {cd : ClassDef Checked}
    (hcd : ClassReady r c cd) (hc : c < program.classes.length)
    (h : Phase r program.classes.length c s) :
    Passes (visitClassDef r c cd) s fun _ u => Phase r program.classes.length (c + 1) u ∧
      TempsMade cd u ∧ ∀ loc, (s.temp loc).isSome = true → (u.temp loc).isSome = true := by
  unfold visitClassDef
  apply (passes_resolveFieldOrder hb c hc s h.ranks).bind
  rintro _ u₁ ⟨hres, hinv, hres_c⟩
  have h₁ := h.resolves hres hinv hb.chains
  apply (passes_visitFields hb hcd.methods u₁).bind
  rintro _ u₂ ⟨hvisits, htrans⟩
  have h₂ := h₁.visits hb hvisits
  have hres₂ : Resolved u₂ c := by
    unfold Resolved at hres_c ⊢
    rw [hvisits.same]
    exact hres_c
  unfold Passes
  rw [Cmd.wp_bind, Cmd.wp_get]
  simp only
  rw [vars_sorted (h₂.ranks.ranked c hc hres₂) hcd]
  have hnodup : (cd.fields.filterMap varOf).Nodup := by
    have hscope : (r.scopes c).Nodup := List.Nodup.of_map _ (hb.nodup_names c)
    rw [← hcd.scope] at hscope
    have hfilter := hscope.filter Symbol.isVar
    rw [← vars_of_fields] at hfilter
    exact List.Nodup.of_map _ hfilter
  apply (passes_placeVars hnodup _ u₂).imp
  rintro _ u ⟨hsame, hother, hplaced⟩
  rw [vars_of_fields, hcd.scope] at hother hplaced
  have hstart : (r.chain c).tail.head?.elim (POINTER_SIZE : Int) u₂.size =
      continued 4 u.size (ancestors r c) := by
    rw [ancestors_of_mem_chain hb.chains hc, hsame]
    rfl
  have hfuncs : ∀ f, u.offset (.func f) = u₂.offset (.func f) := fun f =>
    hother _ fun hmem => by simpa [Symbol.isVar] using (List.mem_filter.mp hmem).2
  have htemp : u.temp = u₂.temp := by rw [hsame]
  refine ⟨⟨h₂.ranks.congr (by rw [hsame]) (by rw [hsame]) (by rw [hsame])
      fun d x _ => by rw [hsame], fun d hd => ?_, fun d hd => ?_, fun d hd f hf => ?_, fun d => ?_⟩,
    fun m hm loc hloc => ?_, fun loc hloc => ?_⟩
  · have : Resolved u₂ d := by
      rcases Nat.lt_succ_iff_lt_or_eq.mp hd with hd | rfl
      · exact h₂.resolved d hd
      · exact hres₂
    unfold Resolved at this ⊢
    rw [hsame]
    exact this
  · rcases Nat.lt_succ_iff_lt_or_eq.mp hd with hd | rfl
    · have hsize : u.size = u₂.size := by rw [hsame]
      rw [hsize, ← h₂.placed d hd]
      refine List.map_congr_left fun x hx => hother x fun hmem => ?_
      have heq := hb.disjoint (List.mem_filter.mp hx).1 (List.mem_filter.mp hmem).1
      exact absurd heq (Nat.ne_of_lt hd)
    · rw [hplaced, hstart]
      congr 1
      rw [← List.length_map (f := Symbol.var), vars_of_fields, hcd.scope]
  · have : Translated u₂ f := by
      rcases Nat.lt_succ_iff_lt_or_eq.mp hd with hd | rfl
      · exact h₂.translated d hd f hf
      · rw [← hcd.scope] at hf
        obtain ⟨field, hfield, hdecl⟩ := List.mem_map.mp hf
        cases field with
        | var d => cases hdecl
        | method m' =>
          obtain rfl := Symbol.func.inj hdecl
          exact (htrans m' hfield).translated
    exact translated_congr this (by rw [hsame]) (hfuncs f) (by rw [hsame])
  · rw [hsame]
    exact h₂.fresh d
  · rw [htemp]
    exact (htrans m hm).temps loc hloc
  · rw [htemp]
    apply hvisits.temps loc
    rw [hres.same]
    exact hloc

/-- A loop over the classes. -/
theorem passes_visitClasses {visit : ClassId → ClassDef Checked → Pass Unit} {I : Nat → Output → Prop}
    {cds : List (ClassDef Checked)}
    (hvisit : ∀ i cd s, cds[i]? = some cd → I i s → Passes (visit i cd) s fun _ u => I (i + 1) u)
    (h : I 0 s) : Passes (visitClasses visit cds 0) s fun _ u => I cds.length u := by
  have hall : ∀ (rest : List (ClassDef Checked)) (i : Nat) (s : Output), cds.drop i = rest → I i s →
      Passes (visitClasses visit rest i) s fun _ u => I (i + rest.length) u := by
    intro rest
    induction rest with
    | nil => exact fun i s _ hi => hi
    | cons cd rest ih =>
      intro i s hdrop hi
      have hget : cds[i]? = some cd := by
        rw [← List.head?_drop, hdrop]
        rfl
      have hdrop' : cds.drop (i + 1) = rest := by
        rw [← List.tail_drop, hdrop]
        rfl
      apply (hvisit i cd s hget hi).bind
      intro _ u hu
      apply (ih (i + 1) u hdrop' hu).imp
      intro _ v hv
      rw [List.length_cons, ← Nat.add_assoc, Nat.add_right_comm]
      exact hv
  simpa using hall cds 0 s rfl h

end

end nehcpu.decaf.TransPass1
