-- The virtual tables that `TransPass1` makes and the offsets behind them, for the classes that the
-- checks have passed.
import Nehcpu.Decaf.Layout

namespace nehcpu.decaf.TransPass1

open command
open BuildSym (BuiltRight getParent)

/-! ## The chains -/

section

variable {program : Program} {r : BuildSym.Result} {s : Output} {c : ClassId}

/-- When all the classes have been visited, the numbers are right along each chain. -/
theorem Phase.ranked (hb : BuiltRight program r)
    (h : Phase r program.classes.length program.classes.length s) :
    ∀ c < program.classes.length, Ranked r.scopes (Output.ranking s) (r.chain c) := by
  refine hb.chains.induction fun c hc ih => ?_
  rw [ancestors_of_mem_chain hb.chains hc]
  refine ⟨h.ranks.ranked c hc (h.resolved c hc), ?_⟩
  unfold ancestors
  cases hp : getParent r.globals r.parentName c with
  | none => trivial
  | some p => exact ih p hp

theorem Phase.offsets (hb : BuiltRight program r)
    (h : Phase r program.classes.length program.classes.length s) :
    ∀ c < program.classes.length, Placed r.scopes (Output.ranking s) s.offset (r.chain c) := by
  refine hb.chains.induction fun c hc ih => ?_
  rw [ancestors_of_mem_chain hb.chains hc]
  refine ⟨h.placed c hc, ?_⟩
  unfold ancestors
  cases hp : getParent r.globals r.parentName c with
  | none => trivial
  | some p => exact ih p hp

theorem continued_chain (hb : BuiltRight program r) (hc : c < program.classes.length) (root : Int)
    (f : ClassId → Int) : continued root f (r.chain c) = f c := by
  rw [ancestors_of_mem_chain hb.chains hc]
  rfl

/-- Each method of a class and of its ancestors has a label and a place in the table. -/
theorem Phase.method (hb : BuiltRight program r)
    (h : Phase r program.classes.length program.classes.length s) (hc : c < program.classes.length)
    {f : Function} (hf : .func f ∈ (r.chain c).reverse.flatMap r.scopes)
    (hstatik : f.statik = false) :
    (s.functy f).isSome = true ∧ 0 ≤ s.order (.func f) ∧
      s.order (.func f) < s.numNonStaticFunc c := by
  obtain ⟨d, hd, hfd⟩ := List.mem_flatMap.mp hf
  rw [List.mem_reverse] at hd
  have hscoped := wellScoped_of_built hb c hc
  have hranked := h.ranked hb c hc
  obtain ⟨g, hg, -, horder⟩ := hranked.override hscoped hd hfd hstatik
  have hrange := hranked.order_range hscoped hg
  rw [horder, continued_chain hb hc] at hrange
  exact ⟨(h.translated d (hb.chains.suffix hc d hd).1 f hfd).1, hrange⟩

end

/-! ## The second loop -/

/-- The entries of a class, from its root on. -/
def tableOf (r : BuildSym.Result) (s : Output) (c : ClassId) : List (Option Label) :=
  fillTable s.functy s.order ((r.chain c).reverse.flatMap r.scopes)
    (List.replicate (s.numNonStaticFunc c).toNat none)

/-- The classes below `i` have their tables, and what the symbols were given is left alone. -/
structure Tabled (r : BuildSym.Result) (s : Output) (i : Nat) (u : Output) : Prop where
  same : u = { s with
    tr := u.tr
    vtable := u.vtable
    newFuncLabel := u.newFuncLabel
    vtables := u.vtables
    funcs := u.funcs }
  tables : ∀ c < i, ∃ vtbl, u.vtable c = some vtbl ∧ vtbl.entries = tableOf r s c

section

variable {program : Program} {r : BuildSym.Result} {s u : Output} {c : ClassId}

theorem passes_fillVTableEntries {syms : List Symbol} {entries : List (Option Label)}
    (h : ∀ f, .func f ∈ syms → f.statik = false →
      (s.functy f).isSome = true ∧ 0 ≤ s.order (.func f) ∧ s.order (.func f) < entries.length) :
    Passes (fillVTableEntries syms entries) s fun out u =>
      u = s ∧ out = fillTable s.functy s.order syms entries := by
  induction syms generalizing entries with
  | nil => exact ⟨rfl, rfl⟩
  | cons x syms ih =>
    have hrest : ∀ f, .func f ∈ syms → f.statik = false →
        (s.functy f).isSome = true ∧ 0 ≤ s.order (.func f) ∧
          s.order (.func f) < entries.length := fun f hf => h f (List.mem_cons_of_mem x hf)
    cases x with
    | var v => exact ih hrest
    | func f =>
      unfold fillVTableEntries fillTable Passes
      rw [Cmd.wp_ite]
      by_cases hstatik : f.statik = true
      · rw [if_pos hstatik, if_pos hstatik]
        exact ih hrest
      · rw [if_neg hstatik, if_neg hstatik, Cmd.wp_bind, Cmd.wp_get]
        obtain ⟨hsome, hrange⟩ := h f List.mem_cons_self (Bool.eq_false_iff.mpr hstatik)
        obtain ⟨label, hlabel⟩ := Option.isSome_iff_exists.mp hsome
        rw [Cmd.wp_bind]
        refine passes_deref hlabel ?_
        rw [Cmd.wp_ite, if_pos hrange, hlabel]
        apply ih
        intro g hg hgs
        rw [List.length_set]
        exact hrest g hg hgs

theorem passes_createVTable (hb : BuiltRight program r)
    (h : Phase r program.classes.length program.classes.length s) (hc : c < program.classes.length)
    (cd : ClassDef Checked) (hu : Tabled r s c u) (hfresh : ∀ d, c ≤ d → u.vtable d = none) :
    Passes (createVTable r c cd) u fun _ v => Tabled r s (c + 1) v ∧
      (∀ d, c + 1 ≤ d → v.vtable d = none) ∧ v.newFuncLabel = u.newFuncLabel := by
  have hfuncs : u.numNonStaticFunc = s.numNonStaticFunc := by rw [hu.same]
  have hfuncty : u.functy = s.functy := by rw [hu.same]
  have horder : u.order = s.order := by rw [hu.same]
  unfold createVTable Passes
  rw [Cmd.wp_bind, Cmd.wp_get, hfresh c (Nat.le_refl c), hfuncs]
  have hnonneg := (h.resolved c hc).1
  rw [Cmd.wp_ite, if_neg (by simp), Cmd.wp_ite, if_neg (by omega), Cmd.wp_bind]
  have hfill : Passes (fillVTableEntries ((r.chain c).reverse.flatMap r.scopes)
      (List.replicate (s.numNonStaticFunc c).toNat none)) u fun out v =>
        v = u ∧ out = tableOf r s c := by
    unfold tableOf
    rw [← hfuncty, ← horder]
    apply passes_fillVTableEntries
    intro f hf hstatik
    have hmethod := h.method hb hc hf hstatik
    rw [hfuncty, horder, List.length_replicate, Int.toNat_of_nonneg hnonneg]
    exact hmethod
  apply Cmd.Wp.mono hfill _ (fun _ _ => id) id
  rintro entries _ ⟨rfl, rfl⟩
  rw [Cmd.wp_modify]
  refine ⟨⟨?_, fun d hd => ?_⟩, fun d hd => ?_, rfl⟩
  · rw [hu.same]
  · rcases Nat.lt_succ_iff_lt_or_eq.mp hd with hd | rfl
    · obtain ⟨vtbl, hvtbl, hentries⟩ := hu.tables d hd
      exact ⟨vtbl, (Function.update_of_ne (Nat.ne_of_lt hd) _ _).trans hvtbl, hentries⟩
    · exact ⟨_, Function.update_self .., rfl⟩
  · exact (Function.update_of_ne (Nat.ne_of_gt hd) _ _).trans (hfresh d (Nat.le_of_succ_le hd))

/-- The routine that makes an object leaves the tables alone. -/
theorem passes_genNewForClass {i : Nat} (hu : Tabled r s i u) (hc : c < i) :
    Passes (genNewForClass c) u fun _ v => Tabled r s i v ∧ v.vtable = u.vtable ∧
      ∃ label, v.newFuncLabel = Function.update u.newFuncLabel c (some label) := by
  obtain ⟨vtbl, hvtbl, -⟩ := hu.tables c hc
  unfold genNewForClass Passes
  rw [Cmd.wp_bind]
  unfold beginFunc
  rw [Cmd.wp_modify, Cmd.wp_bind]
  have hlabel : ∀ v, Passes (emit createLabel) v fun _ w => w = { v with tr := w.tr } := fun _ => rfl
  apply Cmd.Wp.mono (hlabel _) _ (fun _ _ => id) id
  intro label v hv
  rw [Cmd.wp_bind, Cmd.wp_modify, Cmd.wp_bind, Cmd.wp_get]
  have hkept : v.vtable c = some vtbl := by
    rw [hv]
    exact hvtbl
  simp only [hkept]
  rw [Cmd.wp_bind]
  have hcode : ∀ w, Passes (emit (genNewObject label (v.size c) vtbl.name)) w
      fun _ x => x = { w with tr := x.tr } := fun _ => rfl
  apply Cmd.Wp.mono (hcode _) _ (fun _ _ => id) id
  intro _ w hw
  unfold endFunc
  rw [Cmd.wp_modify]
  have htables : w.vtable = u.vtable := by rw [hw, hv]
  refine ⟨⟨?_, fun d hd => ?_⟩, htables, label, by rw [hw, hv]⟩
  · rw [hw, hv, hu.same]
  · simp only [htables]
    exact hu.tables d hd

/-! ## The third loop -/

theorem passes_linkVTable (hb : BuiltRight program r) {cd : ClassDef Checked}
    (hcd : ClassReady r c cd) {n : Nat} (hc : c < n) (hu : Tabled r s n u) :
    Passes (linkVTable r c cd) u fun _ v => Tabled r s n v ∧
      v.newFuncLabel = u.newFuncLabel := by
  unfold linkVTable Passes
  rw [Cmd.wp_ite]
  split
  · exact ⟨hu, rfl⟩
  · next hsome =>
    have hparent : (r.parentName c).isSome = true := by
      rw [← hcd.parent]
      simpa [Option.isNone_iff_eq_none, Option.isSome_iff_ne_none] using hsome
    obtain ⟨p, hp⟩ := Option.isSome_iff_exists.mp (hb.parents c hparent)
    obtain ⟨vtbl, hvtbl, hentries⟩ := hu.tables c hc
    rw [Cmd.wp_bind, Cmd.wp_get, Cmd.wp_bind]
    refine passes_deref hvtbl ?_
    rw [Cmd.wp_bind]
    refine passes_deref hp ?_
    rw [Cmd.wp_modify]
    refine ⟨⟨?_, fun d hd => ?_⟩, rfl⟩
    · rw [hu.same]
    · by_cases hdc : d = c
      · subst hdc
        exact ⟨_, Function.update_self .., hentries⟩
      · obtain ⟨vtbl', hvtbl', hentries'⟩ := hu.tables d hd
        exact ⟨vtbl', (Function.update_of_ne hdc _ _).trans hvtbl', hentries'⟩

/-! ## The whole pass -/

/-- Nothing has its numbers yet. -/
theorem phase_start {n : Nat} : Phase r n 0 Output.start := by
  have hnot : ∀ d, ¬ Resolved Output.start d := by
    intro d h
    exact absurd h.1 (by simp [Output.start])
  refine ⟨⟨fun d _ hd => absurd hd (hnot d), fun d _ hd => absurd hd (hnot d)⟩, ?_, ?_, ?_, fun _ => rfl⟩ <;>
    exact fun d hd => absurd hd (Nat.not_lt_zero d)

/-- What the whole pass leaves: `s` is the output behind the first loop. -/
structure Finished (r : BuildSym.Result) (cds : List (ClassDef Checked)) (n : Nat) (s u : Output) :
    Prop where
  phase : Phase r n n s
  tabled : Tabled r s n u
  routines : ∀ c < n, (u.newFuncLabel c).isSome = true
  temps : ∀ cd ∈ cds, TempsMade cd u

theorem passes_visitTopLevel (hb : BuiltRight program r) {cds : List (ClassDef Checked)}
    (hlen : cds.length = program.classes.length)
    (hcds : ∀ c cd, cds[c]? = some cd → ClassReady r c cd) :
    Passes (visitTopLevel r cds) Output.start fun _ u => ∃ s,
      Finished r cds program.classes.length s u := by
  have hlt : ∀ c cd, cds[c]? = some cd → c < program.classes.length := by
    intro c cd hcd
    rw [← hlen]
    exact (List.getElem?_eq_some_iff.mp hcd).1
  have hfirst : Passes (visitClasses (visitClassDef r) cds 0) Output.start fun _ u =>
      Phase r program.classes.length cds.length u ∧
        ∀ c cd, c < cds.length → cds[c]? = some cd → TempsMade cd u := by
    refine passes_visitClasses (I := fun i u => Phase r program.classes.length i u ∧
      ∀ c cd, c < i → cds[c]? = some cd → TempsMade cd u) ?_ ⟨phase_start, nofun⟩
    rintro c cd s hcd ⟨hs, hmade⟩
    apply (passes_visitClassDef hb (hcds c cd hcd) (hlt c cd hcd) hs).imp
    rintro _ u ⟨hu, hnew, hkept⟩
    refine ⟨hu, fun d cd' hd hcd' => ?_⟩
    rcases Nat.lt_succ_iff_lt_or_eq.mp hd with hd | rfl
    · exact fun m hm loc hloc => hkept loc (hmade d cd' hd hcd' m hm loc hloc)
    · rw [hcd, Option.some_inj] at hcd'
      rw [← hcd']
      exact hnew
  unfold visitTopLevel
  apply hfirst.bind
  rintro _ s ⟨hs, hmade⟩
  rw [hlen] at hs
  have hsecond : Passes (visitClasses (createClass r) cds 0) s fun _ u =>
      Tabled r s cds.length u ∧ (∀ d, cds.length ≤ d → u.vtable d = none) ∧
        ∀ d < cds.length, (u.newFuncLabel d).isSome = true := by
    refine passes_visitClasses (I := fun i u => Tabled r s i u ∧ (∀ d, i ≤ d → u.vtable d = none) ∧
      ∀ d < i, (u.newFuncLabel d).isSome = true) ?_ ?_
    · rintro c cd u hcd ⟨hu, hfresh, hroutines⟩
      unfold createClass
      apply (passes_createVTable hb hs (hlt c cd hcd) cd hu hfresh).bind
      rintro _ v ⟨hv, hfresh', hnew⟩
      apply (passes_genNewForClass hv (Nat.lt_succ_self c)).imp
      rintro _ w ⟨hw, hsame, label, hlabel⟩
      refine ⟨hw, fun d hd => ?_, fun d hd => ?_⟩
      · rw [hsame]
        exact hfresh' d hd
      · rw [hlabel, hnew]
        rcases Nat.lt_succ_iff_lt_or_eq.mp hd with hd | rfl
        · rw [Function.update_of_ne (Nat.ne_of_lt hd)]
          exact hroutines d hd
        · rw [Function.update_self]
          rfl
    · exact ⟨⟨rfl, fun d hd => absurd hd (Nat.not_lt_zero d)⟩, fun d _ => hs.fresh d,
        fun d hd => absurd hd (Nat.not_lt_zero d)⟩
  apply hsecond.bind
  rintro _ u ⟨hu, -, hroutines⟩
  rw [hlen] at hu hroutines
  have hthird : Passes (visitClasses (linkVTable r) cds 0) u fun _ v =>
      Tabled r s program.classes.length v ∧ v.newFuncLabel = u.newFuncLabel := by
    refine passes_visitClasses (I := fun _ v => Tabled r s program.classes.length v ∧
      v.newFuncLabel = u.newFuncLabel) ?_ ⟨hu, rfl⟩
    rintro c cd v hcd ⟨hv, hsame⟩
    apply (passes_linkVTable hb (hcds c cd hcd) (hlt c cd hcd) hv).imp
    rintro _ w ⟨hw, hsame'⟩
    exact ⟨hw, hsame'.trans hsame⟩
  apply hthird.imp
  rintro _ v ⟨hv, hsame⟩
  refine ⟨s, hs, hv, fun c hc => ?_, fun cd hcd => ?_⟩
  · rw [hsame]
    exact hroutines c hc
  · obtain ⟨c, hc, rfl⟩ := List.getElem_of_mem hcd
    have htemp : v.temp = s.temp := by rw [hv.same]
    have hm := hmade c _ hc (List.getElem?_eq_getElem hc)
    unfold TempsMade at hm ⊢
    rw [htemp]
    exact hm

end

/-! ## The layout -/

/-- The table of a class. A method is called through the entry at its order, which stands at its
offset. -/
structure TableRight (r : BuildSym.Result) (s : Output) (c : ClassId) (vtbl : VTable) : Prop where
  entry : ∀ f, VisibleMethod r.scopes (r.chain c) f → 0 ≤ s.order (.func f) ∧
    s.offset (.func f) = 8 + 4 * s.order (.func f) ∧
    ∃ label, s.functy f = some label ∧ vtbl.entries[(s.order (.func f)).toNat]? = some (some label)
  filled : ∀ i < vtbl.entries.length, ∃ f label, VisibleMethod r.scopes (r.chain c) f ∧
    s.order (.func f) = i ∧ s.functy f = some label ∧ vtbl.entries[i]? = some (some label)
  unshared : ∀ f g, VisibleMethod r.scopes (r.chain c) f → VisibleMethod r.scopes (r.chain c) g →
    s.order (.func f) = s.order (.func g) → f = g
  /-- A method of the class, or of an ancestor of it, stands there itself or is overridden. -/
  overridden : ∀ d ∈ r.chain c, ∀ f, .func f ∈ r.scopes d → f.statik = false →
    ∃ g label, VisibleMethod r.scopes (r.chain c) g ∧ g.name = f.name ∧
      s.order (.func g) = s.order (.func f) ∧ s.functy g = some label ∧
      vtbl.entries[(s.order (.func f)).toNat]? = some (some label)
  /-- A method of the class itself overrides each one of an ancestor that has its name. -/
  overriding : ∀ d ∈ r.chain c, ∀ f g, .func f ∈ r.scopes d → f.statik = false →
    .func g ∈ r.scopes c → g.name = f.name → VisibleMethod r.scopes (r.chain c) g ∧
      s.order (.func g) = s.order (.func f)

/-- The variables of an object, inherited or not, behind the pointer to the table. -/
structure FieldsRight (r : BuildSym.Result) (s : Output) (c : ClassId) : Prop where
  visible : ∀ d ∈ r.chain c, ∀ v, .var v ∈ r.scopes d →
    lookupVisible r.scopes v.name (r.chain c) = some (.var v)
  within : ∀ d ∈ r.chain c, ∀ v, .var v ∈ r.scopes d →
    (POINTER_SIZE : Int) ≤ s.offset (.var v) ∧ s.offset (.var v) + WORD_SIZE ≤ s.size c
  apart : ∀ d ∈ r.chain c, ∀ e ∈ r.chain c, ∀ v w, .var v ∈ r.scopes d → .var w ∈ r.scopes e →
    v ≠ w → s.offset (.var v) + WORD_SIZE ≤ s.offset (.var w) ∨
      s.offset (.var w) + WORD_SIZE ≤ s.offset (.var v)

structure LaidOut (r : BuildSym.Result) (n : Nat) (s : Output) : Prop where
  table : ∀ c < n, ∃ vtbl, s.vtable c = some vtbl ∧ TableRight r s c vtbl
  fields : ∀ c < n, FieldsRight r s c

section

variable {program : Program} {r : BuildSym.Result} {s u : Output} {c : ClassId}

theorem tableRight_of_phase (hb : BuiltRight program r)
    (h : Phase r program.classes.length program.classes.length s) (hc : c < program.classes.length)
    {vtbl : VTable} (hvtbl : vtbl.entries = tableOf r s c) : TableRight r s c vtbl := by
  have hscoped := wellScoped_of_built hb c hc
  have hranked := h.ranked hb c hc
  have hnonneg := (h.resolved c hc).1
  have hfuncs := continued_chain hb hc 0 s.numNonStaticFunc
  have hentry : ∀ f, VisibleMethod r.scopes (r.chain c) f → 0 ≤ s.order (.func f) ∧
      s.offset (.func f) = 8 + 4 * s.order (.func f) ∧
      ∃ label, s.functy f = some label ∧
        vtbl.entries[(s.order (.func f)).toNat]? = some (some label) := by
    intro f hf
    obtain ⟨d, hd, hfd⟩ := mem_of_lookupVisible hf.1
    have htranslated := h.translated d (hb.chains.suffix hc d hd).1 f hfd
    obtain ⟨label, hlabel⟩ := Option.isSome_iff_exists.mp htranslated.1
    refine ⟨(hranked.order_range hscoped hf).1, htranslated.2 hf.2, label, hlabel, ?_⟩
    have hle : continued 0 s.numNonStaticFunc (r.chain c) ≤ (s.numNonStaticFunc c).toNat := by
      rw [hfuncs, Int.toNat_of_nonneg hnonneg]
    rw [hvtbl, ← hlabel]
    exact hranked.fillTable hscoped hle hf
  refine ⟨hentry, fun i hi => ?_, fun f g hf hg => hranked.order_inj hscoped hf hg,
    fun d hd f hf hstatik => ?_, fun d hd f g hf hstatik hg hname => ?_⟩
  · rw [hvtbl, tableOf, fillTable_length, List.length_replicate] at hi
    have hrange : (0 : Int) ≤ i ∧ (i : Int) < continued 0 s.numNonStaticFunc (r.chain c) := by
      rw [hfuncs]
      omega
    obtain ⟨f, hf, horder⟩ := hranked.order_surj hscoped hrange
    obtain ⟨-, -, label, hlabel, hread⟩ := hentry f hf
    change s.order (.func f) = i at horder
    rw [horder, Int.toNat_natCast] at hread
    exact ⟨f, label, hf, horder, hlabel, hread⟩
  · obtain ⟨g, hg, hname, horder⟩ := hranked.override hscoped hd hf hstatik
    obtain ⟨-, -, label, hlabel, hread⟩ := hentry g hg
    change s.order (.func g) = s.order (.func f) at horder
    rw [horder] at hread
    exact ⟨g, label, hg, hname, horder, hlabel, hread⟩
  · -- what is visible under the name is the method of the class itself
    obtain ⟨g', hg', hname', horder⟩ := hranked.override hscoped hd hf hstatik
    have hown : lookupVisible r.scopes g.name (r.chain c) = some (.func g) := by
      rw [ancestors_of_mem_chain hb.chains hc]
      exact lookupVisible_own (s := .func g) (hb.nodup_names c) hg
    have hlook := hg'.1
    rw [hname', ← hname, hown] at hlook
    obtain rfl := Symbol.func.inj (Option.some_inj.mp hlook)
    exact ⟨hg', horder⟩

theorem fieldsRight_of_phase (hb : BuiltRight program r)
    (h : Phase r program.classes.length program.classes.length s)
    (hc : c < program.classes.length) : FieldsRight r s c := by
  have hscoped := wellScoped_of_built hb c hc
  have hranked := h.ranked hb c hc
  have hplaced := h.offsets hb c hc
  refine ⟨fun d hd v hv => var_visible hscoped hd hv, fun d hd v hv => ?_,
    fun d hd e he v w hv hw hne => hplaced.apart hranked hd he hv hw hne⟩
  have hrange := hplaced.range hranked hd hv
  have hsize := continued_chain hb hc 4 s.size
  exact ⟨hrange.1, hrange.2.trans_eq hsize⟩

/-- The tables and the offsets do not depend on what came into the output later. -/
theorem laidOut_of_tabled (hb : BuiltRight program r)
    (h : Phase r program.classes.length program.classes.length s)
    (hu : Tabled r s program.classes.length u) : LaidOut r program.classes.length u := by
  have horder : u.order = s.order := by rw [hu.same]
  have hoffset : u.offset = s.offset := by rw [hu.same]
  have hfuncty : u.functy = s.functy := by rw [hu.same]
  have hsize : u.size = s.size := by rw [hu.same]
  refine ⟨fun c hc => ?_, fun c hc => ?_⟩
  · obtain ⟨vtbl, hvtbl, hentries⟩ := hu.tables c hc
    obtain ⟨hentry, hfilled, hunshared, hoverridden, hoverriding⟩ :=
      tableRight_of_phase hb h hc hentries
    rw [← horder, ← hfuncty] at *
    rw [← hoffset] at hentry
    exact ⟨vtbl, hvtbl, hentry, hfilled, hunshared, hoverridden, hoverriding⟩
  · obtain ⟨hvisible, hwithin, hapart⟩ := fieldsRight_of_phase hb h hc
    rw [← hoffset] at hwithin hapart
    rw [← hsize] at hwithin
    exact ⟨hvisible, hwithin, hapart⟩

end

/-- The pass lays out the classes of every program that is accepted. -/
theorem visitTopLevel_laidOut (program : Program) (r : BuildSym.Result)
    (cds : List (ClassDef Checked)) (hr : BuildSym.visitTopLevel program = .ok r)
    (hrn : r.errors = []) (hcds : TypeCheck.visitTopLevel r [] = .ok cds []) :
    ∃ s, visitTopLevel r cds Output.start = .ok () s ∧ LaidOut r program.classes.length s := by
  obtain ⟨r', hr', hbuilt⟩ := BuildSym.visitTopLevel_ok program
  rw [hr, Except.ok.injEq] at hr'
  subst hr'
  have hb := hbuilt hrn
  obtain ⟨hlen, hready⟩ := classReady_of_checked hb hcds
  have hpass := passes_visitTopLevel hb hlen hready
  unfold Passes Cmd.Wp at hpass
  cases hrun : visitTopLevel r cds Output.start with
  | ok a u =>
    rw [hrun] at hpass
    obtain ⟨s, hu⟩ := hpass
    exact ⟨u, rfl, laidOut_of_tabled hb hu.phase hu.tabled⟩
  | fail e u =>
    rw [hrun] at hpass
    exact hpass.elim
  | stop =>
    rw [hrun] at hpass
    exact hpass.elim

/-- A class with two methods, one that overrides the second of them and has a third, and one with
`main`. Each of the first two has a variable. -/
def shapes : Program where
  classes :=
    [⟨"Base", none, [
      .var ⟨"a", .typeIdent .INT, 1, ()⟩,
      .method ⟨false, "f", .typeIdent .VOID, [], (), (), .nil, 2, ()⟩,
      .method ⟨false, "g", .typeIdent .VOID, [], (), (), .nil, 3, ()⟩]⟩,
    ⟨"Sub", some "Base", [
      .var ⟨"b", .typeIdent .INT, 4, ()⟩,
      .method ⟨false, "g", .typeIdent .VOID, [], (), (), .nil, 5, ()⟩,
      .method ⟨false, "h", .typeIdent .VOID, [], (), (), .nil, 6, ()⟩]⟩,
    ⟨"Main", none, [.method ⟨true, "main", .typeIdent .VOID, [], (), (), .nil, 7, ()⟩]⟩]
  ordered := by decide

/-- No pass before the translation finds an error. -/
def accepted (p : Program) : Bool :=
  match BuildSym.visitTopLevel p with
  | .ok r => r.errors.isEmpty && (match TypeCheck.visitTopLevel r [] with
    | .ok _ es => es.isEmpty
    | _ => false)
  | .error _ => false

theorem visitTopLevel_laidOut_shapes : ∃ r cds s, BuildSym.visitTopLevel shapes = .ok r ∧
    TypeCheck.visitTopLevel r [] = .ok cds [] ∧
    visitTopLevel r cds Output.start = .ok () s ∧ LaidOut r 3 s := by
  obtain ⟨r, hr, -⟩ := BuildSym.visitTopLevel_ok shapes
  have haccepted : accepted shapes = true := by decide +kernel
  unfold accepted at haccepted
  rw [hr] at haccepted
  simp only [Bool.and_eq_true, List.isEmpty_iff] at haccepted
  obtain ⟨herrors, hchecked⟩ := haccepted
  split at hchecked
  · next cds es hcds =>
    rw [List.isEmpty_iff] at hchecked
    subst hchecked
    obtain ⟨s, hs, hlaid⟩ := visitTopLevel_laidOut shapes r cds hr herrors hcds
    exact ⟨r, cds, s, hr, hcds, hs, hlaid⟩
  · cases hchecked

end nehcpu.decaf.TransPass1
