-- The parents of the classes as `BuildSym` leaves them: what the loop of `visitTopLevel` detaches
-- and reports, and that every walk along the parents ends afterwards.
import Nehcpu.Decaf.BuildSym
import Nehcpu.Lib.Numbering

namespace nehcpu.decaf.BuildSym

open Relation numbering

/-! ## The classes by their names -/

/-- `c` names `d` as its parent. -/
def Extends (cds : List (ClassDef Parsed)) (c d : ClassId) : Prop :=
  ∃ x y, cds[c]? = some x ∧ cds[d]? = some y ∧ x.parent = some y.name

/-- The names of the parents before anything is detached. -/
def parentNames (cds : List (ClassDef Parsed)) (c : ClassId) : Option String :=
  cds[c]?.bind ClassDef.parent

def declared (cds : List (ClassDef Parsed)) : Globals := (declareClasses cds 0 []).1

theorem lookupClass_append (globals : Globals) (name name' : String) (c : ClassId) :
    Globals.lookupClass (globals ++ [(name, c)]) name' =
      (globals.lookupClass name').or (if name = name' then some c else none) := by
  unfold Globals.lookupClass
  rw [List.find?_append]
  cases globals.find? fun x => x.1 = name' with
  | some x => rfl
  | none =>
    by_cases h : name = name'
    · simp [h]
    · simp [h]

theorem lookupClass_declareClasses (cds : List (ClassDef Parsed)) (c : ClassId) (globals : Globals)
    (name : String) :
    (declareClasses cds c globals).1.lookupClass name =
      (globals.lookupClass name).or ((cds.findIdx? fun cd => cd.name = name).map (c + ·)) := by
  induction cds generalizing c globals with
  | nil => simp [declareClasses]
  | cons cd cds ih =>
    unfold declareClasses
    rw [List.findIdx?_cons]
    split
    · next hsome =>
      simp only
      rw [ih]
      by_cases hname : cd.name = name
      · obtain ⟨d, hd⟩ := Option.isSome_iff_exists.mp hsome
        rw [← hname, hd]
        rfl
      · simp [hname, Function.comp_def, Nat.add_assoc, Nat.add_comm 1]
    · next hnone =>
      rw [ih, lookupClass_append]
      by_cases hname : cd.name = name
      · rw [Bool.not_eq_true, Option.isSome_eq_false_iff, Option.isNone_iff_eq_none] at hnone
        rw [← hname, hnone]
        simp
      · simp [hname, Function.comp_def, Nat.add_assoc, Nat.add_comm 1]

theorem lookupClass_declared (cds : List (ClassDef Parsed)) (name : String) :
    (declared cds).lookupClass name = cds.findIdx? fun cd => cd.name = name := by
  unfold declared
  rw [lookupClass_declareClasses]
  simp [Globals.lookupClass]

section

variable {cds : List (ClassDef Parsed)}

theorem lookupClass_eq_some (hnames : (cds.map ClassDef.name).Nodup) {name : String} {d : ClassId} :
    (declared cds).lookupClass name = some d ↔ cds[d]?.map ClassDef.name = some name := by
  rw [lookupClass_declared, List.findIdx?_eq_some_iff_getElem]
  constructor
  · rintro ⟨hd, hname, -⟩
    simpa [List.getElem?_eq_getElem hd] using hname
  · intro h
    obtain ⟨cd, hcd, rfl⟩ := Option.map_eq_some_iff.mp h
    obtain ⟨hd, rfl⟩ := List.getElem?_eq_some_iff.mp hcd
    refine ⟨hd, by simp, ?_⟩
    intro j hj
    have hne := List.pairwise_iff_getElem.mp hnames j d (by simpa using hj.trans hd)
      (by simpa using hd) hj
    simpa using hne

theorem getParent_eq_some (hnames : (cds.map ClassDef.name).Nodup) {c d : ClassId} :
    getParent (declared cds) (parentNames cds) c = some d ↔ Extends cds c d := by
  unfold getParent parentNames Extends
  constructor
  · intro h
    obtain ⟨name, hname, hd⟩ := Option.bind_eq_some_iff.mp h
    obtain ⟨x, hx, hparent⟩ := Option.bind_eq_some_iff.mp hname
    obtain ⟨y, hy, rfl⟩ := Option.map_eq_some_iff.mp ((lookupClass_eq_some hnames).mp hd)
    exact ⟨x, y, hx, hy, hparent⟩
  · rintro ⟨x, y, hx, hy, hparent⟩
    rw [hx, Option.bind_some, hparent, Option.bind_some, lookupClass_eq_some hnames, hy]
    rfl

theorem lookupClass_lt {name : String} {d : ClassId}
    (h : (declared cds).lookupClass name = some d) : d < cds.length := by
  rw [lookupClass_declared] at h
  exact (List.findIdx?_eq_some_iff_getElem.mp h).1

end

/-! ## calcOrder -/

/-- `calcOrder` goes the walk of the library. -/
theorem calcOrder_walk {parent : ClassId → Option ClassId} {order : ClassId → Int}
    {start : Option ClassId} {xs : List ClassId} {base : Int} (w : Walk parent order start xs base)
    {fuel : Nat} (hfuel : xs.length < fuel) :
    calcOrder parent fuel order start = .ok (assign base xs order, base + xs.length) := by
  induction w generalizing fuel with
  | root => cases fuel <;> simp [calcOrder, assign]
  | @known order c hc =>
    obtain ⟨fuel, rfl⟩ : ∃ n, fuel = n + 1 := ⟨fuel - 1, by omega⟩
    simp [calcOrder, assign, Int.not_lt.mpr hc]
  | @step order c xs base hc _ ih =>
    obtain ⟨fuel, rfl⟩ : ∃ n, fuel = n + 1 := ⟨fuel - 1, by omega⟩
    rw [calcOrder, if_pos hc, ih (by simpa using hfuel)]
    simp only [assign, List.length_cons]
    push_cast
    rw [Int.add_assoc]

/-! ## The loop -/

/-- What is reported of a class, once it has an order. -/
def report (globals : Globals) (parentName : ClassId → Option String) (order : ClassId → Int)
    (c : ClassId) : Option (ClassId × DecafError) :=
  match parentName c with
  | none => none
  | some name =>
    match globals.lookupClass name with
    | none => some (c, .ClassNotFound)
    | some d => if order c ≤ order d then some (c, .BadInheritance) else none

section

variable {cds : List (ClassDef Parsed)} {globals : Globals} {parentName : ClassId → Option String}
  {order : ClassId → Int} {c d : ClassId}

theorem report_fst {r : ClassId × DecafError} (h : report globals parentName order c = some r) :
    r.1 = c := by
  unfold report at h
  split at h
  · cases h
  · split at h
    · obtain rfl := Option.some_inj.mp h
      rfl
    · split at h
      · obtain rfl := Option.some_inj.mp h
        rfl
      · cases h

theorem report_notFound :
    report globals parentName order c = some (c, .ClassNotFound) ↔
      (parentName c).isSome = true ∧ getParent globals parentName c = none := by
  unfold report getParent
  cases parentName c with
  | none => simp
  | some name =>
    simp only [Option.isSome_some, Option.bind_some, true_and]
    cases globals.lookupClass name with
    | none => simp
    | some d => simp

theorem report_bad :
    report globals parentName order c = some (c, .BadInheritance) ↔
      Backs (getParent globals parentName) order c := by
  unfold report getParent Backs
  cases hp : parentName c with
  | none => simp [hp]
  | some name =>
    cases hd : globals.lookupClass name with
    | none => simp [hp, hd]
    | some d => simp [hp, hd]

theorem report_none :
    report globals parentName order c = none ↔ parentName c = none ∨
      ∃ d, getParent globals parentName c = some d ∧ order d < order c := by
  unfold report getParent
  cases parentName c with
  | none => simp
  | some name =>
    simp only [Option.bind_some]
    cases globals.lookupClass name with
    | none => simp
    | some d => simp

/-- The classes that are reported. -/
def Inheritance.reported (h : Inheritance) : List ClassId := h.errors.map Prod.fst

/-- What holds when the classes of `done` have been checked. -/
structure Checked (globals : Globals) (parentName : ClassId → Option String) (done : List ClassId)
    (h : Inheritance) : Prop where
  numbered : Numbered (getParent globals parentName) h.order
  passed : ∀ c ∈ done, 0 ≤ h.order c
  names : ∀ c, h.parentName c = if c ∈ h.reported then none else parentName c
  errors : h.errors = done.filterMap (report globals parentName h.order)

variable {done : List ClassId} {h : Inheritance}

theorem map_report (cs : List ClassId) :
    (cs.filterMap (report globals parentName order)).map Prod.fst =
      cs.filter fun c => (report globals parentName order c).isSome := by
  induction cs with
  | nil => rfl
  | cons c cs ih =>
    rw [List.filterMap_cons, List.filter_cons]
    cases hr : report globals parentName order c with
    | none => simpa [hr] using ih
    | some r => simp [ih, report_fst hr]

theorem Checked.reported_eq (hc : Checked globals parentName done h) :
    h.reported = done.filter fun c => (report globals parentName h.order c).isSome := by
  unfold Inheritance.reported
  rw [hc.errors, map_report]

theorem Checked.reported_subset (hc : Checked globals parentName done h) {c : ClassId}
    (hmem : c ∈ h.reported) : c ∈ done := by
  rw [hc.reported_eq] at hmem
  exact List.mem_of_mem_filter hmem

theorem Checked.name_of_fresh (hc : Checked globals parentName done h) {c : ClassId}
    (hfresh : c ∉ done) : h.parentName c = parentName c := by
  rw [hc.names, if_neg fun hmem => hfresh (hc.reported_subset hmem)]

theorem Checked.fresh_of_neg (hc : Checked globals parentName done h) {c : ClassId}
    (hneg : h.order c < 0) : c ∉ done := by
  intro hmem
  have := hc.passed c hmem
  omega

/-- Where the orders of `done` stay, so do the reports. -/
theorem Checked.report_congr (hc : Checked globals parentName done h)
    (hkeeps : ∀ c, 0 ≤ h.order c → order c = h.order c) :
    done.filterMap (report globals parentName order) =
      done.filterMap (report globals parentName h.order) := by
  refine List.filterMap_congr fun c hcd => ?_
  have hpos := hc.passed c hcd
  unfold report
  cases hp : parentName c with
  | none => rfl
  | some name =>
    simp only
    cases hd : globals.lookupClass name with
    | none => rfl
    | some d =>
      have hnext : getParent globals parentName c = some d := by
        rw [getParent, hp]
        exact hd
      simp only [hkeeps c hpos, hkeeps d (hc.numbered.closed c d hpos hnext)]

/-- `Checked` after the next class, by what has been reported of it. -/
theorem Checked.snoc (hc : Checked globals parentName done h) (hfresh : c ∉ done)
    {order : ClassId → Int} (hnum : Numbered (getParent globals parentName) order)
    (hkeeps : ∀ x, 0 ≤ h.order x → order x = h.order x) (hpos : 0 ≤ order c) {h' : Inheritance}
    (horder : h'.order = order)
    (herrors : h'.errors = h.errors ++ (report globals parentName order c).toList)
    (hnames : h'.parentName = if (report globals parentName order c).isSome then
      Function.update h.parentName c none else h.parentName) :
    Checked globals parentName (done ++ [c]) h' := by
  have hrep : h'.reported = h.reported ++
      if (report globals parentName order c).isSome then [c] else [] := by
    unfold Inheritance.reported
    rw [herrors, List.map_append]
    congr 1
    cases hr : report globals parentName order c with
    | none => rfl
    | some r =>
      have := report_fst hr
      simp [this]
  constructor
  · rw [horder]
    exact hnum
  · intro x hx
    rw [horder]
    rcases List.mem_append.mp hx with hx | hx
    · have := hc.passed x hx
      rw [hkeeps x this]
      exact this
    · rw [List.mem_singleton.mp hx]
      exact hpos
  · intro x
    rw [hnames, hrep]
    split
    · by_cases hxc : x = c
      · simp [hxc]
      · rw [Function.update_of_ne hxc, hc.names]
        simp [hxc]
    · rw [hc.names]
      simp
  · rw [herrors, horder, List.filterMap_append, hc.report_congr hkeeps, hc.errors]
    cases hr : report globals parentName order c with
    | none => simp [hr]
    | some r => simp [hr]

theorem calcOrder_known {parent : ClassId → Option ClassId} {fuel : Nat}
    (hc : ∀ d, parent c = some d → 0 ≤ order d) :
    calcOrder parent (fuel + 1) order (parent c) =
      .ok (order, match parent c with | none => -1 | some d => order d) := by
  cases hd : parent c with
  | none => simp [calcOrder]
  | some d => simp [calcOrder, Int.not_lt.mpr (hc d hd)]

/-- The two calls of `calcOrder`, where the parents are those of the start for all classes that have
no order and for the class itself. -/
theorem calcOrder_twice {next parent : ClassId → Option ClassId} {n : Nat}
    (hn : ∀ x y, next x = some y → y < n) (hnum : Numbered next order)
    (hsame : ∀ x, order x < 0 → parent x = next x) (hself : parent c = next c) (hc : c < n) :
    ∃ order', Numbered next order' ∧ (∀ x, 0 ≤ order x → order' x = order x) ∧ 0 ≤ order' c ∧
      calcOrder parent (n + 1) order (some c) = .ok (order', order' c) ∧
      calcOrder parent (n + 1) order' (parent c) =
        .ok (order', match next c with | none => -1 | some d => order' d) := by
  have hrange : ∀ x y, next x = some y → y ∈ Finset.range n := fun x y hxy =>
    Finset.mem_range.mpr (hn x y hxy)
  have hstart : ∀ x, some c = some x → x ∈ Finset.range n := by
    rintro x ⟨⟩
    exact Finset.mem_range.mpr hc
  obtain ⟨xs, base, w⟩ := exists_walk (Finset.range n) hrange order (some c) hstart
  have hlen := w.length_le hrange hstart
  rw [Finset.card_range] at hlen
  have hnum' := hnum.walk w
  have hpos : 0 ≤ assign base xs order c := w.numbered_iff.mpr (w.start_numbered rfl)
  have hwalk := calcOrder_walk (w.congr fun x hx => (hsame x hx).symm) (Nat.lt_succ_of_le hlen)
  refine ⟨assign base xs order, hnum', fun x hx => w.keeps hx, hpos, ?_, ?_⟩
  · rw [w.start_value rfl]
    exact hwalk
  · rw [calcOrder_known fun d hd => hnum'.closed c d hpos (hself ▸ hd), hself]

/-- One turn of the loop. -/
theorem checkParent_ok {n : Nat} (hn : ∀ name d, globals.lookupClass name = some d → d < n)
    (hc : Checked globals parentName done h) (hfresh : c ∉ done) (hcn : c < n) :
    ∃ h', checkParent globals (n + 1) h c = .ok h' ∧
      Checked globals parentName (done ++ [c]) h' := by
  have hname := hc.name_of_fresh hfresh
  have hnext : ∀ x y, getParent globals parentName x = some y → y < n := by
    intro x y hxy
    obtain ⟨name, -, hy⟩ := Option.bind_eq_some_iff.mp hxy
    exact hn name y hy
  have hold : ∀ x, h.order x < 0 → getParent globals h.parentName x =
      getParent globals parentName x := by
    intro x hx
    rw [getParent, hc.name_of_fresh (hc.fresh_of_neg hx)]
    rfl
  have hself : getParent globals h.parentName c = getParent globals parentName c := by
    rw [getParent, hname]
    rfl
  unfold checkParent
  rw [hself, hname]
  by_cases hmissing : (parentName c).isSome = true ∧ (getParent globals parentName c).isNone = true
  · have hnone : getParent globals parentName c = none := by
      simpa using hmissing.2
    have hdetached : ∀ x, getParent globals (h.dettachParent c .ClassNotFound).parentName x =
        if x = c then none else getParent globals h.parentName x := by
      intro x
      show (Function.update h.parentName c none x).bind globals.lookupClass = _
      by_cases hxc : x = c
      · rw [hxc, Function.update_self, if_pos rfl]
        rfl
      · rw [Function.update_of_ne hxc, if_neg hxc]
        rfl
    have hold' : ∀ x, h.order x < 0 →
        getParent globals (h.dettachParent c .ClassNotFound).parentName x =
          getParent globals parentName x := by
      intro x hx
      rw [hdetached]
      split
      · next hxc => rw [hxc, hnone]
      · exact hold x hx
    have hself' : getParent globals (h.dettachParent c .ClassNotFound).parentName c =
        getParent globals parentName c := by
      rw [hdetached, if_pos rfl, hnone]
    obtain ⟨order', hnum, hkeeps, hpos, hfirst, hsecond⟩ :=
      calcOrder_twice hnext hc.numbered hold' hself' hcn
    have hreport : report globals parentName order' c = some (c, .ClassNotFound) :=
      report_notFound.mpr ⟨hmissing.1, hnone⟩
    simp only [if_pos hmissing]
    rw [show (h.dettachParent c .ClassNotFound).order = h.order from rfl, hfirst]
    simp only [hsecond, hnone]
    rw [if_neg (by omega)]
    refine ⟨_, rfl, hc.snoc hfresh hnum hkeeps hpos rfl ?_ ?_⟩
    · rw [hreport]
      rfl
    · rw [hreport]
      rfl
  · obtain ⟨order', hnum, hkeeps, hpos, hfirst, hsecond⟩ :=
      calcOrder_twice hnext hc.numbered hold hself hcn
    simp only [if_neg hmissing, hfirst, hsecond]
    cases hd : getParent globals parentName c with
    | none =>
      have hreport : report globals parentName order' c = none := by
        refine report_none.mpr (Or.inl ?_)
        rw [hd] at hmissing
        simpa using hmissing
      rw [if_neg (by simp only; omega)]
      refine ⟨_, rfl, hc.snoc hfresh hnum hkeeps hpos rfl ?_ ?_⟩
      · rw [hreport]
        simp
      · rw [hreport]
        rfl
    | some d =>
      by_cases hle : order' c ≤ order' d
      · have hreport : report globals parentName order' c = some (c, .BadInheritance) :=
          report_bad.mpr ⟨d, hd, hle⟩
        simp only [if_pos hle]
        refine ⟨_, rfl, hc.snoc hfresh hnum hkeeps hpos rfl ?_ ?_⟩
        · rw [hreport]
          rfl
        · rw [hreport]
          rfl
      · have hreport : report globals parentName order' c = none :=
          report_none.mpr (Or.inr ⟨d, hd, by omega⟩)
        simp only [if_neg hle]
        refine ⟨_, rfl, hc.snoc hfresh hnum hkeeps hpos rfl ?_ ?_⟩
        · rw [hreport]
          simp
        · rw [hreport]
          rfl

/-- The loop over all classes. -/
theorem checkParents_ok {n : Nat} (hn : ∀ name d, globals.lookupClass name = some d → d < n)
    (cs : List ClassId) (hc : Checked globals parentName done h) (hnodup : (done ++ cs).Nodup)
    (hcs : ∀ c ∈ cs, c < n) :
    ∃ h', checkParents globals (n + 1) h cs = .ok h' ∧
      Checked globals parentName (done ++ cs) h' := by
  induction cs generalizing done h with
  | nil => exact ⟨h, rfl, by simpa using hc⟩
  | cons c cs ih =>
    have hfresh : c ∉ done := by
      intro hmem
      exact (List.nodup_append.mp hnodup).2.2 c hmem c List.mem_cons_self rfl
    obtain ⟨h1, hstep, hc1⟩ := checkParent_ok hn hc hfresh (hcs c List.mem_cons_self)
    have happend : done ++ c :: cs = (done ++ [c]) ++ cs := by simp
    rw [happend] at hnodup ⊢
    obtain ⟨h', hrun, hc'⟩ := ih hc1 hnodup fun x hx => hcs x (List.mem_cons_of_mem c hx)
    refine ⟨h', ?_, hc'⟩
    rw [checkParents, hstep]
    exact hrun

end

/-! ## createType -/

section

variable {parent : ClassId → Option ClassId} {order : ClassId → Int}

theorem createType_ends (hdown : ∀ c d, parent c = some d → 0 ≤ order d ∧ order d < order c)
    {fuel : Nat} {c : ClassId} (hfuel : (order c).toNat < fuel) :
    ∃ cs, createType parent fuel c = .ok cs := by
  induction fuel generalizing c with
  | zero => cases hfuel
  | succ fuel ih =>
    rw [createType]
    cases hd : parent c with
    | none => exact ⟨[c], rfl⟩
    | some d =>
      have := hdown c d hd
      obtain ⟨cs, hcs⟩ := ih (c := d) (by omega)
      exact ⟨c :: cs, by simp [hcs]⟩

theorem createTypes_ends (hdown : ∀ c d, parent c = some d → 0 ≤ order d ∧ order d < order c)
    (cs : List ClassId) : ∃ chain, createTypes parent order cs = .ok chain := by
  induction cs with
  | nil => exact ⟨_, rfl⟩
  | cons c cs ih =>
    obtain ⟨l, hl⟩ := createType_ends hdown (Nat.lt_succ_self (order c).toNat)
    obtain ⟨chain, hchain⟩ := ih
    refine ⟨Function.update chain c l, ?_⟩
    simp [createTypes, hl, hchain]

end

/-! ## The parents that are left -/

/-- What the loop is for: of each cycle one class is reported and loses its parent, and so do the
classes whose parent nobody knows. All others keep theirs, and every walk along them ends. -/
structure CutRight (cds : List (ClassDef Parsed)) (h : Inheritance) : Prop where
  cycle : ∀ c, TransGen (Extends cds) c c →
    ∃! d, TransGen (Extends cds) c d ∧ (d, .BadInheritance) ∈ h.errors
  onCycle : ∀ c, (c, .BadInheritance) ∈ h.errors → TransGen (Extends cds) c c
  unknown : ∀ c, (c, .ClassNotFound) ∈ h.errors ↔
    ∃ x name, cds[c]? = some x ∧ x.parent = some name ∧ ∀ y ∈ cds, y.name ≠ name
  kinds : ∀ r ∈ h.errors, r.2 = .BadInheritance ∨ r.2 = .ClassNotFound
  once : h.reported.Nodup
  names : ∀ c, h.parentName c = if c ∈ h.reported then none else parentNames cds c
  ends : WellFounded fun d c => getParent (declared cds) h.parentName c = some d
  types : ∃ chain, createTypes (getParent (declared cds) h.parentName) h.order
    (List.range cds.length) = .ok chain

section

variable {cds : List (ClassDef Parsed)} {h : Inheritance}

/-- `Checked` for all classes. -/
abbrev AllChecked (cds : List (ClassDef Parsed)) (h : Inheritance) : Prop :=
  Checked (declared cds) (parentNames cds) (List.range cds.length) h

theorem AllChecked.mem_errors (hc : AllChecked cds h) {c : ClassId} {e : DecafError} :
    (c, e) ∈ h.errors ↔ report (declared cds) (parentNames cds) h.order c = some (c, e) := by
  rw [hc.errors, List.mem_filterMap]
  constructor
  · rintro ⟨d, -, hd⟩
    obtain rfl : c = d := report_fst hd
    exact hd
  · intro hrep
    refine ⟨c, ?_, hrep⟩
    by_contra hlt
    rw [List.mem_range, Nat.not_lt] at hlt
    simp [report, parentNames, List.getElem?_eq_none hlt] at hrep

theorem AllChecked.mem_reported (hc : AllChecked cds h) {c : ClassId} :
    c ∈ h.reported ↔ (report (declared cds) (parentNames cds) h.order c).isSome = true := by
  unfold Inheritance.reported
  rw [List.mem_map]
  constructor
  · rintro ⟨⟨d, e⟩, hr, rfl⟩
    rw [hc.mem_errors.mp hr]
    rfl
  · intro hsome
    obtain ⟨⟨d, e⟩, hr⟩ := Option.isSome_iff_exists.mp hsome
    obtain rfl : d = c := report_fst hr
    exact ⟨(d, e), hc.mem_errors.mpr hr, rfl⟩

/-- The links that are left go down. -/
theorem AllChecked.down (hc : AllChecked cds h) {c d : ClassId}
    (hd : getParent (declared cds) h.parentName c = some d) :
    0 ≤ h.order d ∧ h.order d < h.order c := by
  obtain ⟨name, hname, hlook⟩ := Option.bind_eq_some_iff.mp hd
  rw [hc.names] at hname
  split at hname
  · cases hname
  · next hnot =>
    have hlt : c < cds.length := by
      by_contra hlt
      rw [parentNames, List.getElem?_eq_none (Nat.not_lt.mp hlt)] at hname
      cases hname
    have hparent : getParent (declared cds) (parentNames cds) c = some d := by
      rw [getParent, hname]
      exact hlook
    rw [hc.mem_reported, Bool.not_eq_true, Option.isSome_eq_false_iff,
      Option.isNone_iff_eq_none, report_none, hname] at hnot
    rcases hnot with hnone | ⟨d', hd', hdown⟩
    · cases hnone
    · obtain rfl := Option.some_inj.mp (hparent.symm.trans hd')
      exact ⟨hc.numbered.closed c d (hc.passed c (List.mem_range.mpr hlt)) hparent, hdown⟩

theorem follows_eq_extends (hnames : (cds.map ClassDef.name).Nodup) :
    Follows (getParent (declared cds) (parentNames cds)) = Extends cds := by
  ext c d
  exact getParent_eq_some hnames

theorem unknown_iff {c : ClassId} :
    (parentNames cds c).isSome = true ∧ getParent (declared cds) (parentNames cds) c = none ↔
      ∃ x name, cds[c]? = some x ∧ x.parent = some name ∧ ∀ y ∈ cds, y.name ≠ name := by
  unfold getParent parentNames
  constructor
  · rintro ⟨hsome, hnone⟩
    obtain ⟨name, hname⟩ := Option.isSome_iff_exists.mp hsome
    obtain ⟨x, hx, hparent⟩ := Option.bind_eq_some_iff.mp hname
    rw [hname, Option.bind_some, lookupClass_declared, List.findIdx?_eq_none_iff] at hnone
    exact ⟨x, name, hx, hparent, fun y hy => by simpa using hnone y hy⟩
  · rintro ⟨x, name, hx, hparent, hno⟩
    rw [hx, Option.bind_some, hparent, Option.bind_some, lookupClass_declared,
      List.findIdx?_eq_none_iff]
    exact ⟨rfl, fun y hy => by simpa using hno y hy⟩

theorem AllChecked.cutRight (hnames : (cds.map ClassDef.name).Nodup) (hc : AllChecked cds h) :
    CutRight cds h := by
  have hpos : ∀ c d, Extends cds c d → 0 ≤ h.order c := by
    rintro c d ⟨x, -, hx, -⟩
    exact hc.passed c (List.mem_range.mpr (List.getElem?_eq_some_iff.mp hx).1)
  constructor
  · intro c hcycle
    obtain ⟨d, hcd, -⟩ := TransGen.head'_iff.mp hcycle
    have hunique := hc.numbered.existsUnique (hpos c d hcd)
      (by rw [follows_eq_extends hnames]; exact hcycle)
    rw [follows_eq_extends hnames] at hunique
    simpa only [hc.mem_errors, report_bad] using hunique
  · intro c hmem
    have hbacks := report_bad.mp (hc.mem_errors.mp hmem)
    obtain ⟨d, hd, -⟩ := hbacks
    have hcycle := hc.numbered.cycle c (hpos c d ((getParent_eq_some hnames).mp hd))
      (report_bad.mp (hc.mem_errors.mp hmem))
    rwa [follows_eq_extends hnames] at hcycle
  · intro c
    rw [hc.mem_errors, report_notFound, unknown_iff]
  · rintro ⟨c, e⟩ hmem
    have hrep := hc.mem_errors.mp hmem
    unfold report at hrep
    grind
  · rw [hc.reported_eq]
    exact List.nodup_range.filter _
  · exact hc.names
  · exact wellFounded_of_down fun c d hd => hc.down hd
  · exact createTypes_ends (fun c d hd => hc.down hd) _

end

/-- The classes before the loop. -/
def undetached (cds : List (ClassDef Parsed)) : Inheritance := ⟨parentNames cds, fun _ => -1, []⟩

theorem checked_undetached (cds : List (ClassDef Parsed)) :
    Checked (declared cds) (parentNames cds) [] (undetached cds) := by
  refine ⟨⟨?_, ?_, ?_⟩, ?_, ?_, rfl⟩
  · exact fun _ _ hc _ => absurd hc (by simp [undetached])
  · exact fun _ hc _ => absurd hc (by simp [undetached])
  · exact fun _ _ hc _ _ _ => absurd hc (by simp [undetached])
  · intro c hc
    cases hc
  · exact fun _ => rfl

/-- The loop of `visitTopLevel` comes to its end, for any classes of different names. -/
theorem checkParents_cuts (cds : List (ClassDef Parsed))
    (hnames : (cds.map ClassDef.name).Nodup) :
    ∃ h, checkParents (declared cds) (cds.length + 1) (undetached cds) (List.range cds.length) =
      .ok h ∧ CutRight cds h := by
  obtain ⟨h, hrun, hc⟩ := checkParents_ok (fun _ _ hd => lookupClass_lt hd)
    (List.range cds.length) (checked_undetached cds) (by simpa using List.nodup_range)
    (fun c hc => List.mem_range.mp hc)
  rw [List.nil_append] at hc
  exact ⟨h, hrun, AllChecked.cutRight hnames hc⟩

/-- Two classes on a cycle, one that leads into it, one that is its own parent, one whose parent is
missing, and one without a parent. -/
def tangled : List (ClassDef Parsed) :=
  [⟨"A", some "B", []⟩, ⟨"B", some "C", []⟩, ⟨"C", some "B", []⟩, ⟨"D", some "D", []⟩,
    ⟨"E", some "X", []⟩, ⟨"Main", none, []⟩]

theorem checkParents_cuts_tangled :
    ∃ h, checkParents (declared tangled) 7 (undetached tangled) (List.range 6) = .ok h ∧
      CutRight tangled h :=
  checkParents_cuts tangled (by decide)

/-- `C` is the last class that the walk from `A` comes to. -/
example : (checkParents (declared tangled) 7 (undetached tangled) (List.range 6)).map
    Inheritance.errors =
      .ok [(2, .BadInheritance), (3, .BadInheritance), (4, .ClassNotFound)] := by decide

end nehcpu.decaf.BuildSym
