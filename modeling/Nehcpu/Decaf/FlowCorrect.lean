-- Executing the flow graph against executing the list: every run of the graph that begins at
-- the piece that the list begins with passes what the run of the list passes.
import Nehcpu.Decaf.Simplify
import Nehcpu.Lib.Simulation
import Mathlib.Data.Nat.Find

namespace nehcpu.decaf

open simulation

/-! ## Places in the list -/

theorem Piece.onward_eq_some {p : Piece} {l : Label} (h : p.onward = some l) :
    p.body = [] ∧ ∃ n, p.ender = some n ∧ n.tac = .branch l := by
  unfold Piece.onward at h
  split at h
  · next n hb he =>
    split at h
    · next ht =>
      obtain rfl := Option.some_inj.1 h
      exact ⟨hb, n, he, ht⟩
    · cases h
  · cases h

/-- The list from here on is what is left of the piece `p` when `tacs` are left of its body,
and then the pieces behind it. -/
def Functy.Here (f : Functy) (rest : List Node) (k : Nat) (p : Piece) (tacs : List Node) : Prop :=
  (∃ ls, decaf.pieces f.target rest = ⟨ls, tacs, p.ender⟩ :: f.pieces.drop (k + 1)) ∨
    (tacs = [] ∧ p.ender = none ∧ decaf.pieces f.target rest = f.pieces.drop (k + 1))

section

variable {f : Functy} {n : Node} {rest : List Node} {k : Nat} {p : Piece} {tacs : List Node}

theorem Functy.Here.skip (h : f.Here (n :: rest) k p tacs)
    (heq : decaf.pieces f.target (n :: rest) = decaf.pieces f.target rest) :
    f.Here rest k p tacs := by
  unfold Functy.Here at h ⊢
  rwa [heq] at h

theorem drop_eq_cons {ps : List Piece} {k : Nat} {q : Piece} {qs : List Piece}
    (h : ps.drop k = q :: qs) : ps[k]? = some q ∧ ps.drop (k + 1) = qs := by
  have hlt : k < ps.length := by
    by_contra hn
    rw [List.drop_eq_nil_of_le (Nat.le_of_not_lt hn)] at h
    cases h
  rw [List.drop_eq_getElem_cons hlt] at h
  obtain ⟨rfl, rfl⟩ := List.cons_eq_cons.1 h
  exact ⟨List.getElem?_eq_getElem hlt, rfl⟩

theorem Functy.here_start {k : Nat} {p : Piece} (hp : f.pieces[k]? = some p)
    (h : decaf.pieces f.target rest = f.pieces.drop k) : f.Here rest k p p.body := by
  obtain ⟨hlt, rfl⟩ := List.getElem?_eq_some_iff.1 hp
  refine Or.inl ⟨f.pieces[k].labels, ?_⟩
  rw [h, List.drop_eq_getElem_cons hlt]

/-- A label stands in front of what is left, or it opens the next piece. -/
theorem Functy.Here.label {l : Label} (h : f.Here (n :: rest) k p tacs) (hn : n.tac = .mark l)
    (hl : f.target l = true) :
    f.Here rest k p tacs ∨ (tacs = [] ∧ p.ender = none ∧
      ∃ p', f.pieces[k + 1]? = some p' ∧ f.Here rest (k + 1) p' p'.body) := by
  unfold Functy.Here at h
  rw [pieces_target rest hn hl] at h
  cases hps : decaf.pieces f.target rest with
  | nil =>
    rw [hps] at h
    obtain ⟨ls, h⟩ | ⟨ht, he, h⟩ := h
    · obtain ⟨heq, hdrop⟩ := List.cons_eq_cons.1 h
      obtain ⟨-, rfl, he⟩ := Piece.mk.injEq .. ▸ heq
      exact Or.inl (Or.inr ⟨rfl, he.symm, hps.trans hdrop⟩)
    · obtain ⟨hget, hdrop⟩ := drop_eq_cons h.symm
      exact Or.inr ⟨ht, he, _, hget, Or.inr ⟨rfl, rfl, hps.trans hdrop.symm⟩⟩
  | cons q qs =>
    rw [hps] at h
    obtain ⟨ls, h⟩ | ⟨ht, he, h⟩ := h
    · obtain ⟨heq, hdrop⟩ := List.cons_eq_cons.1 h
      obtain ⟨-, hb, he⟩ := Piece.mk.injEq .. ▸ heq
      refine Or.inl (Or.inl ⟨q.labels, ?_⟩)
      rw [hps, hdrop, ← hb, ← he]
    · obtain ⟨hget, hdrop⟩ := drop_eq_cons h.symm
      refine Or.inr ⟨ht, he, _, hget, Or.inl ⟨q.labels, ?_⟩⟩
      rw [hps, hdrop]

/-- In front of a label or of nothing stands no plain instruction and no jump. -/
theorem Functy.not_labelled (hp : f.pieces[k]? = some p) (he : p.ender = none)
    {q : Piece} {qs : List Piece} (h : q :: qs = f.pieces.drop (k + 1)) : q.labels ≠ [] := by
  obtain ⟨-, -, hopen⟩ := f.pieces_ok.get hp
  obtain ⟨hget, -⟩ := drop_eq_cons h.symm
  have hlab := (hopen he (List.getElem?_eq_some_iff.1 hget).1).2
  rwa [← h] at hlab

theorem Functy.Here.plain (h : f.Here (n :: rest) k p tacs) (hp : f.pieces[k]? = some p)
    (hn : n.tac.isPlain = true) : ∃ tacs', tacs = n :: tacs' ∧ f.Here rest k p tacs' := by
  unfold Functy.Here at h
  rw [pieces_plain rest hn] at h
  obtain ⟨ls, h⟩ | ⟨-, he, h⟩ := h
  · cases hps : decaf.pieces f.target rest with
    | nil =>
      rw [hps] at h
      obtain ⟨heq, hdrop⟩ := List.cons_eq_cons.1 h
      obtain ⟨-, rfl, he⟩ := Piece.mk.injEq .. ▸ heq
      exact ⟨[], rfl, Or.inr ⟨rfl, he.symm, hps.trans hdrop⟩⟩
    | cons q qs =>
      rw [hps] at h
      by_cases hq : q.labels = []
      · rw [addTac, if_pos hq] at h
        obtain ⟨heq, hdrop⟩ := List.cons_eq_cons.1 h
        obtain ⟨-, rfl, he⟩ := Piece.mk.injEq .. ▸ heq
        refine ⟨q.body, rfl, Or.inl ⟨q.labels, ?_⟩⟩
        rw [hps, hdrop, ← he]
      · rw [addTac, if_neg hq] at h
        obtain ⟨heq, hdrop⟩ := List.cons_eq_cons.1 h
        obtain ⟨-, rfl, he⟩ := Piece.mk.injEq .. ▸ heq
        exact ⟨[], rfl, Or.inr ⟨rfl, he.symm, hps.trans hdrop⟩⟩
  · have hno := not_labelled_addTac n (decaf.pieces f.target rest)
    cases hps : addTac n (decaf.pieces f.target rest) with
    | nil =>
      cases hr : decaf.pieces f.target rest with
      | nil => simp [hr, addTac] at hps
      | cons q qs => by_cases hq : q.labels = [] <;> simp [hr, addTac, hq] at hps
    | cons q qs =>
      rw [hps] at h hno
      exact absurd (Functy.not_labelled hp he h) hno

theorem Functy.Here.jump (h : f.Here (n :: rest) k p tacs) (hp : f.pieces[k]? = some p)
    (hn : n.tac.isJump = true) :
    tacs = [] ∧ p.ender = some n ∧ decaf.pieces f.target rest = f.pieces.drop (k + 1) := by
  unfold Functy.Here at h
  rw [pieces_jump rest hn] at h
  obtain ⟨ls, h⟩ | ⟨-, he, h⟩ := h
  · obtain ⟨heq, hdrop⟩ := List.cons_eq_cons.1 h
    obtain ⟨-, ht, he⟩ := Piece.mk.injEq .. ▸ heq
    exact ⟨ht.symm, he.symm, hdrop⟩
  · exact absurd rfl (Functy.not_labelled hp he h)

theorem Functy.Here.nil (h : f.Here [] k p tacs) :
    tacs = [] ∧ p.ender = none ∧ f.more k = false := by
  obtain ⟨ls, h⟩ | ⟨ht, he, h⟩ := h
  · cases h
  · refine ⟨ht, he, ?_⟩
    have := List.drop_eq_nil_iff.1 h.symm
    simp only [Functy.more, decide_eq_false_iff_not]
    omega

end

/-- From a label on the list is the piece that the label stands in front of. -/
theorem pieces_whereIs {target : Label → Bool} {l : Label} (hl : target l = true)
    {nodes : List Node} (h : l ∈ nodes.filterMap fun n => n.tac.marked?) :
    ∃ p ls, (pieces target nodes)[pieceOf (pieces target nodes) l]? = some p ∧
      pieces target (whereIs nodes l) =
        ⟨ls, p.body, p.ender⟩ :: (pieces target nodes).drop (pieceOf (pieces target nodes) l + 1) := by
  induction nodes with
  | nil => cases h
  | cons n rest ih =>
    rw [List.filterMap_cons] at h
    by_cases hmark : n.tac.marked? = some l
    · have hn : n.tac = .mark l := by
        cases ht : n.tac <;> rw [ht] at hmark <;> cases hmark
        rfl
      have hwhere : whereIs (n :: rest) l = n :: rest := by simp [whereIs, hmark]
      rw [hwhere, pieces_target rest hn hl]
      cases decaf.pieces target rest with
      | nil =>
        exact ⟨⟨[l], [], none⟩, [l], by simp [addLabel, pieceOf_cons],
          by simp [addLabel, pieceOf_cons]⟩
      | cons q qs =>
        exact ⟨{ q with labels := l :: q.labels }, l :: q.labels, by simp [addLabel, pieceOf_cons],
          by simp [addLabel, pieceOf_cons]⟩
    · have hwhere : whereIs (n :: rest) l = whereIs rest l := by simp [whereIs, hmark]
      have hrest : l ∈ rest.filterMap fun n => n.tac.marked? := by
        split at h
        · exact h
        · next l' hl' =>
          obtain rfl | h := List.mem_cons.1 h
          · exact absurd hl' hmark
          · exact h
      obtain ⟨p, ls, hget, hps⟩ := ih hrest
      rw [hwhere, hps]
      obtain ⟨_, hn⟩ | ⟨l', hn⟩ | hn | hn := n.tac.kinds
      · rw [pieces_memo rest hn]
        exact ⟨p, ls, hget, rfl⟩
      · cases hl' : target l' with
        | false =>
          rw [pieces_unused rest hn hl']
          exact ⟨p, ls, hget, rfl⟩
        | true =>
          have hne : l' ≠ l := by
            rintro rfl
            exact hmark (by rw [hn]; rfl)
          rw [pieces_target rest hn hl', pieceOf_addLabel hne (pieces_ne_nil hl hrest)]
          cases hp : decaf.pieces target rest with
          | nil => exact absurd hp (pieces_ne_nil hl hrest)
          | cons q qs =>
            rw [hp] at hget
            cases hk : pieceOf (q :: qs) l with
            | zero =>
              rw [hk] at hget
              obtain rfl := Option.some_inj.1 hget
              exact ⟨_, ls, rfl, rfl⟩
            | succ k =>
              rw [hk] at hget
              exact ⟨p, ls, hget, rfl⟩
      · rw [pieces_jump rest hn, pieceOf_cons]
        exact ⟨p, ls, hget, rfl⟩
      · rw [pieces_plain rest hn]
        cases hp : decaf.pieces target rest with
        | nil => exact absurd hp (pieces_ne_nil hl hrest)
        | cons q qs =>
          rw [hp] at hget
          by_cases hq : q.labels = []
          · rw [addTac, if_pos hq, pieceOf_cons]
            rw [pieceOf_cons] at hget ⊢
            simp only [hq, List.not_mem_nil, if_false] at hget ⊢
            exact ⟨p, ls, hget, rfl⟩
          · rw [addTac, if_neg hq, pieceOf_cons]
            exact ⟨p, ls, hget, rfl⟩

theorem Functy.here_whereIs {f : Functy} {l : Label} (h : f.Known l) :
    ∃ p, f.pieces[f.num l]? = some p ∧ f.Here (whereIs f.nodes l) (f.num l) p p.body := by
  obtain ⟨p, ls, hp, hps⟩ := pieces_whereIs h.1 h.2
  exact ⟨p, hp, Or.inl ⟨ls, hps⟩⟩

theorem whereIs_length_le (nodes : List Node) (l : Label) :
    (whereIs nodes l).length ≤ nodes.length :=
  (List.dropWhile_sublist _).length_le

/-! ## The two runs -/

/-- The list stands where the graph stands, or it still has BRANCHes to pass that lead there.
The number counts the steps that it may make before the graph has to make one. -/
inductive Functy.Together (f : Functy) (place : Nat → Nat) (g : List BasicBlock) :
    Nat → Point → Spot → Prop
  | gone {m : Nat} {seen : List Visit} : Together f place g m ⟨none, seen⟩ ⟨none, seen⟩
  | inside {k : Nat} {p : Piece} {bb : BasicBlock} {rest tacs : List Node} {seen : List Visit}
      (hp : f.pieces[k]? = some p) (hends : f.Ends place k p.ender bb)
      (h : f.Here rest k p tacs) :
      Together f place g rest.length ⟨some rest, seen⟩ ⟨some (bb, numbered k tacs), seen⟩
  | onward {j c q : Nat} {p : Piece} {bb : BasicBlock} {l : Label} {rest : List Node}
      {seen : List Visit} (hp : f.pieces[j]? = some p) (ho : p.onward = some l)
      (hlead : f.LeadsIn c (f.num l) q) (hkept : f.Kept q) (hbb : g[place q]? = some bb)
      (h : f.Here rest j p []) :
      Together f place g ((c + 1) * (f.nodes.length + 1) + rest.length) ⟨some rest, seen⟩
        ⟨some (bb, bb.tacList), seen⟩

section

variable {f : Functy} {place : Nat → Nat} {g : List BasicBlock}

/-- At the beginning of a piece the graph stands where that piece leads to. -/
theorem Functy.Graph.arrive (hg : f.Graph place g) (seen : List Visit) {c j q : Nat} {p : Piece}
    {bb : BasicBlock} {rest : List Node} (hp : f.pieces[j]? = some p)
    (hlead : f.LeadsIn c j q) (hkept : f.Kept q) (hbb : g[place q]? = some bb)
    (h : f.Here rest j p p.body) :
    ∃ m, m ≤ c * (f.nodes.length + 1) + rest.length ∧
      f.Together place g m ⟨some rest, seen⟩ ⟨some (bb, bb.tacList), seen⟩ := by
  cases hlead with
  | here hp' ho =>
    obtain rfl := Option.some_inj.1 (hp.symm.trans hp')
    obtain ⟨bb', hbb', htacs, hends⟩ := hg.block hp hkept
    obtain rfl := Option.some_inj.1 (hbb.symm.trans hbb')
    refine ⟨rest.length, by omega, ?_⟩
    rw [htacs]
    exact .inside hp hends h
  | hop hp' ho hlead =>
    obtain rfl := Option.some_inj.1 (hp.symm.trans hp')
    rw [(Piece.onward_eq_some ho).1] at h
    exact ⟨_, Nat.le_refl _, .onward hp ho hlead hkept hbb h⟩

theorem Functy.Graph.enter_goes (hg : f.Graph place g) {j i : Nat} (h : f.Goes place j i)
    (seen : List Visit) : ∃ c q bb, f.LeadsIn c j q ∧ f.Kept q ∧ g[place q]? = some bb ∧
      enter g i seen = some ⟨some (bb, bb.tacList), seen⟩ := by
  obtain ⟨q, ⟨c, hlead⟩, hkept, rfl⟩ := h
  obtain ⟨p, hp⟩ := hkept.piece
  obtain ⟨bb, hbb, -⟩ := hg.block hp hkept
  exact ⟨c, q, bb, hlead, hkept, hbb, by rw [enter, hbb]; rfl⟩

/-- Where the graph goes on from the end of a block, the list goes on too. -/
theorem Functy.Graph.goes (hg : f.Graph place g) (seen : List Visit) {j i : Nat} {p : Piece}
    {rest : List Node} (hp : f.pieces[j]? = some p) (h : f.Here rest j p p.body)
    (hgoes : f.Goes place j i) :
    ∃ t m, enter g i seen = some t ∧ f.Together place g m ⟨some rest, seen⟩ t := by
  obtain ⟨c, q, bb, hlead, hkept, hbb, henter⟩ := hg.enter_goes hgoes seen
  obtain ⟨m, -, hR⟩ := hg.arrive seen hp hlead hkept hbb h
  exact ⟨_, m, henter, hR⟩

theorem stepList_plain {nodes : List Node} {isZero : List Visit → Bool} {n : Node}
    {rest : List Node} {seen : List Visit} (h : n.tac.isPlain = true) :
    stepList nodes isZero ⟨some (n :: rest), seen⟩ = some ⟨some rest, .tac n.pos :: seen⟩ := by
  cases ht : n.tac <;> simp_all [stepList, Tac.isPlain, Tac.isMemo, Tac.isMark, Tac.marked?,
    Tac.isJump]

theorem stepList_ne_none {nodes : List Node} {isZero : List Visit → Bool} {rest : List Node}
    {seen : List Visit} : stepList nodes isZero ⟨some rest, seen⟩ ≠ none := by
  cases rest with
  | nil => simp [stepList]
  | cons n rest => cases ht : n.tac <;> simp [stepList, ht]

/-- A step of the list inside a block that is kept. -/
theorem Functy.Graph.step_inside (hg : f.Graph place g) (isZero : List Visit → Bool) {k : Nat}
    {p : Piece} {bb : BasicBlock} {rest tacs : List Node} {seen : List Visit} {s' : Point}
    (hp : f.pieces[k]? = some p) (hends : f.Ends place k p.ender bb) (h : f.Here rest k p tacs)
    (hs : stepList f.nodes isZero ⟨some rest, seen⟩ = some s') :
    (∃ m', m' < rest.length ∧ f.Together place g m' s' ⟨some (bb, numbered k tacs), seen⟩) ∨
      ∃ t' m', stepGraph g isZero ⟨some (bb, numbered k tacs), seen⟩ = some t' ∧
        f.Together place g m' s' t' := by
  cases rest with
  | nil =>
    obtain ⟨rfl, he, hm⟩ := h.nil
    obtain rfl := Option.some_inj.1 hs
    rw [he] at hends
    cases hends with
    | off _ hk hbe => exact Or.inr ⟨_, 0, by simp [stepGraph, hk, hbe], .gone⟩
    | on hm' => rw [hm] at hm'; cases hm'
  | cons n rest =>
    obtain ⟨_, hn⟩ | ⟨l, hn⟩ | hn | hn := n.tac.kinds
    · simp only [stepList, hn, Option.some.injEq] at hs
      subst hs
      exact Or.inl ⟨_, Nat.lt_succ_self _, .inside hp hends (h.skip (pieces_memo rest hn))⟩
    · simp only [stepList, hn, Option.some.injEq] at hs
      subst hs
      cases hl : f.target l with
      | false =>
        exact Or.inl ⟨_, Nat.lt_succ_self _, .inside hp hends (h.skip (pieces_unused rest hn hl))⟩
      | true =>
        obtain h | ⟨rfl, he, p', hp', h'⟩ := h.label hn hl
        · exact Or.inl ⟨_, Nat.lt_succ_self _, .inside hp hends h⟩
        · rw [he] at hends
          cases hends with
          | off hm =>
            have := (List.getElem?_eq_some_iff.1 hp').1
            simp [Functy.more, this] at hm
          | on _ hk hbe hn hgo =>
            obtain ⟨t, m, henter, hR⟩ := hg.goes seen hp' h' hgo
            exact Or.inr ⟨t, m, by simpa [stepGraph, hk, hbe] using henter, hR⟩
    · obtain ⟨rfl, he, hrest⟩ := h.jump hp hn
      have hlink := f.pieces_linked.get hp he
      right
      rw [he] at hends
      cases hends with
      | ret ht hk hbe =>
        simp only [stepList, ht, Option.some.injEq] at hs
        subst hs
        exact ⟨_, 0, by simp [stepGraph, hk, hbe], .gone⟩
      | @branch _ _ l ht hk hbe _ hgo =>
        simp only [stepList, ht, Option.some.injEq] at hs
        subst hs
        obtain ⟨p', hp', h'⟩ := Functy.here_whereIs (hlink.1 l (by rw [ht]; rfl))
        obtain ⟨t, m, henter, hR⟩ := hg.goes seen hp' h' hgo
        exact ⟨t, m, by simpa [stepGraph, hk, hbe] using henter, hR⟩
      | @beqz _ _ _ l ht hk hbe hgo hgo' =>
        simp only [stepList, ht, Option.some.injEq] at hs
        subst hs
        have hlt := hlink.2 (by rw [ht]; rfl)
        cases hz : isZero (.tac n.pos :: seen) with
        | true =>
          obtain ⟨p', hp', h'⟩ := Functy.here_whereIs (hlink.1 l (by rw [ht]; rfl))
          obtain ⟨t, m, henter, hR⟩ := hg.goes (.tac n.pos :: seen) hp' h' hgo
          refine ⟨t, m, ?_, hR⟩
          obtain hk | ⟨hk, -⟩ := hk <;> simp [stepGraph, hk, hbe, hz, henter]
        | false =>
          have hp' := List.getElem?_eq_getElem hlt
          obtain ⟨t, m, henter, hR⟩ := hg.goes (.tac n.pos :: seen) hp'
            (Functy.here_start hp' hrest) hgo'
          refine ⟨t, m, ?_, hR⟩
          obtain hk | ⟨hk, hn⟩ := hk
          · simp [stepGraph, hk, hbe, hz, henter]
          · simp [stepGraph, hk, hbe, ← hn, henter]
      | @bnez _ _ _ l ht hk hbe hgo hgo' =>
        simp only [stepList, ht, Option.some.injEq] at hs
        subst hs
        have hlt := hlink.2 (by rw [ht]; rfl)
        cases hz : isZero (.tac n.pos :: seen) with
        | false =>
          obtain ⟨p', hp', h'⟩ := Functy.here_whereIs (hlink.1 l (by rw [ht]; rfl))
          obtain ⟨t, m, henter, hR⟩ := hg.goes (.tac n.pos :: seen) hp' h' hgo
          refine ⟨t, m, ?_, hR⟩
          obtain hk | ⟨hk, -⟩ := hk <;> simp [stepGraph, hk, hbe, hz, henter]
        | true =>
          have hp' := List.getElem?_eq_getElem hlt
          obtain ⟨t, m, henter, hR⟩ := hg.goes (.tac n.pos :: seen) hp'
            (Functy.here_start hp' hrest) hgo'
          refine ⟨t, m, ?_, hR⟩
          obtain hk | ⟨hk, hn⟩ := hk
          · simp [stepGraph, hk, hbe, hz, henter]
          · simp [stepGraph, hk, hbe, ← hn, henter]
    · obtain ⟨tacs, rfl, h'⟩ := h.plain hp hn
      rw [stepList_plain hn] at hs
      obtain rfl := Option.some_inj.1 hs
      exact Or.inr ⟨_, _, rfl, .inside hp hends h'⟩

/-- A step of the list in a piece that is nothing but a BRANCH: one label less, or at the label
that the BRANCH goes to. -/
theorem Functy.step_branch {isZero : List Visit → Bool} {j : Nat} {p : Piece} {l : Label}
    {rest : List Node} {seen : List Visit} {s' : Point} (hp : f.pieces[j]? = some p)
    (ho : p.onward = some l) (h : f.Here rest j p [])
    (hs : stepList f.nodes isZero ⟨some rest, seen⟩ = some s') :
    (∃ rest', s' = ⟨some rest', seen⟩ ∧ rest'.length < rest.length ∧ f.Here rest' j p []) ∨
      (s' = ⟨some (whereIs f.nodes l), seen⟩ ∧ ∃ p', f.pieces[f.num l]? = some p' ∧
        f.Here (whereIs f.nodes l) (f.num l) p' p'.body) := by
  obtain ⟨-, n', he, ht⟩ := Piece.onward_eq_some ho
  cases rest with
  | nil =>
    have he' := h.nil.2.1
    rw [he] at he'
    cases he'
  | cons n rest =>
    obtain ⟨_, hn⟩ | ⟨l', hn⟩ | hn | hn := n.tac.kinds
    · simp only [stepList, hn, Option.some.injEq] at hs
      exact Or.inl ⟨rest, hs.symm, Nat.lt_succ_self _, h.skip (pieces_memo rest hn)⟩
    · simp only [stepList, hn, Option.some.injEq] at hs
      cases hl : f.target l' with
      | false => exact Or.inl ⟨rest, hs.symm, Nat.lt_succ_self _, h.skip (pieces_unused rest hn hl)⟩
      | true =>
        obtain h | ⟨-, he', -⟩ := h.label hn hl
        · exact Or.inl ⟨rest, hs.symm, Nat.lt_succ_self _, h⟩
        · rw [he] at he'
          cases he'
    · obtain ⟨-, he', -⟩ := h.jump hp hn
      obtain rfl := Option.some_inj.1 (he.symm.trans he')
      have hlink := f.pieces_linked.get hp he
      simp only [stepList, ht, Option.some.injEq] at hs
      exact Or.inr ⟨hs.symm, Functy.here_whereIs (hlink.1 l (by rw [ht]; rfl))⟩
    · obtain ⟨tacs, hnil, -⟩ := h.plain hp hn
      cases hnil

/-- A step of the list through the BRANCHes in front of a block. -/
theorem Functy.Graph.step_onward (hg : f.Graph place g) (isZero : List Visit → Bool)
    {j c q : Nat} {p : Piece} {bb : BasicBlock} {l : Label} {rest : List Node}
    {seen : List Visit} {s' : Point} (hp : f.pieces[j]? = some p) (ho : p.onward = some l)
    (hlead : f.LeadsIn c (f.num l) q) (hkept : f.Kept q) (hbb : g[place q]? = some bb)
    (h : f.Here rest j p []) (hs : stepList f.nodes isZero ⟨some rest, seen⟩ = some s') :
    ∃ m', m' < (c + 1) * (f.nodes.length + 1) + rest.length ∧
      f.Together place g m' s' ⟨some (bb, bb.tacList), seen⟩ := by
  obtain ⟨rest', rfl, hlt, h'⟩ | ⟨rfl, p', hp', h'⟩ := Functy.step_branch hp ho h hs
  · exact ⟨_, Nat.add_lt_add_left hlt _, .onward hp ho hlead hkept hbb h'⟩
  · obtain ⟨m, hm, hR⟩ := hg.arrive seen hp' hlead hkept hbb h'
    have hlen := whereIs_length_le f.nodes l
    have hmul : (c + 1) * (f.nodes.length + 1) = c * (f.nodes.length + 1) + (f.nodes.length + 1) := by
      rw [Nat.add_mul, Nat.one_mul]
    exact ⟨m, by omega, hR⟩

theorem Functy.Graph.simulates (hg : f.Graph place g) (isZero : List Visit → Bool) :
    Simulates (stepList f.nodes isZero) (stepGraph g isZero) Point.seen Spot.seen
      (f.Together place g) where
  same h := by cases h <;> rfl
  halts h hs := by
    cases h with
    | gone => rfl
    | inside => exact absurd hs stepList_ne_none
    | onward => exact absurd hs stepList_ne_none
  step h hs := by
    cases h with
    | gone => cases hs
    | inside hp hends h => exact hg.step_inside isZero hp hends h hs
    | onward hp ho hlead hkept hbb h =>
      exact Or.inl (hg.step_onward isZero hp ho hlead hkept hbb h hs)

end

/-! ## The first thing passed -/

/-- What a run passes first when it is at the beginning of a piece that is kept. -/
def Piece.first (p : Piece) : Visit :=
  match p.body, p.ender with
  | n :: _, _ => .tac n.pos
  | [], some n => .tac n.pos
  | [], none => .off

/-- The instructions that pieces are made of. -/
def pieceNodes (ps : List Piece) : List Node := ps.flatMap fun p => p.body ++ p.ender.toList

theorem pieceNodes_sublist (target : Label → Bool) (nodes : List Node) :
    (pieceNodes (pieces target nodes)).Sublist nodes := by
  induction nodes with
  | nil => exact List.Sublist.refl []
  | cons n rest ih =>
    obtain ⟨_, hn⟩ | ⟨l, hn⟩ | hn | hn := n.tac.kinds
    · rw [pieces_memo rest hn]
      exact ih.cons n
    · cases hl : target l with
      | false => rw [pieces_unused rest hn hl]; exact ih.cons n
      | true =>
        rw [pieces_target rest hn hl]
        have heq : pieceNodes (addLabel l (decaf.pieces target rest)) =
            pieceNodes (decaf.pieces target rest) := by
          cases decaf.pieces target rest <;> simp [addLabel, pieceNodes]
        rw [heq]
        exact ih.cons n
    · rw [pieces_jump rest hn]
      exact ih.cons_cons n
    · rw [pieces_plain rest hn]
      have heq : pieceNodes (addTac n (decaf.pieces target rest)) =
          n :: pieceNodes (decaf.pieces target rest) := by
        cases decaf.pieces target rest with
        | nil => simp [addTac, pieceNodes]
        | cons p ps => by_cases hp : p.labels = [] <;> simp [addTac, pieceNodes, hp]
      rw [heq]
      exact ih.cons_cons n

theorem Functy.nodes_nodup (f : Functy) : (f.nodes.map Node.pos).Nodup := by
  rw [Functy.nodes, List.map_map]
  have h : (Node.pos ∘ fun t : Tac × Nat => { pos := t.2, tac := t.1, bbNum := 0 }) = Prod.snd := rfl
  rw [h, List.zipIdx_map_snd]
  exact List.nodup_range'

/-- No instruction is in two pieces. -/
theorem Functy.piece_unique {f : Functy} {j k : Nat} {p q : Piece} (hp : f.pieces[j]? = some p)
    (hq : f.pieces[k]? = some q) {n m : Node} (hn : n ∈ p.body ++ p.ender.toList)
    (hm : m ∈ q.body ++ q.ender.toList) (h : n.pos = m.pos) : j = k := by
  have hnodup : ((pieceNodes f.pieces).map Node.pos).Nodup :=
    ((pieceNodes_sublist f.target f.nodes).map Node.pos).nodup f.nodes_nodup
  rw [pieceNodes, List.map_flatMap, List.nodup_flatMap] at hnodup
  have hpair := List.pairwise_iff_getElem.1 hnodup.2
  obtain ⟨hj, rfl⟩ := List.getElem?_eq_some_iff.1 hp
  obtain ⟨hk, rfl⟩ := List.getElem?_eq_some_iff.1 hq
  have hn' := List.mem_map_of_mem (f := Node.pos) hn
  have hm' := List.mem_map_of_mem (f := Node.pos) hm
  rw [h] at hn'
  obtain hlt | heq | hlt := Nat.lt_trichotomy j k
  · exact absurd hm' (hpair j k hj hk hlt hn')
  · exact heq
  · exact absurd hn' (hpair k j hk hj hlt hm')

theorem Piece.first_tac {p : Piece} {i : Nat} (h : p.first = .tac i) :
    ∃ n ∈ p.body ++ p.ender.toList, n.pos = i := by
  unfold Piece.first at h
  split at h
  · next _ n ns hb => exact ⟨n, by simp [hb], Visit.tac.inj h⟩
  · next n hb he => exact ⟨n, by simp [he], Visit.tac.inj h⟩
  · cases h

theorem Functy.first_off {f : Functy} {j : Nat} {p : Piece} (hp : f.pieces[j]? = some p)
    (h : p.first = .off) : j + 1 = f.pieces.length := by
  have hlt := (List.getElem?_eq_some_iff.1 hp).1
  by_contra hne
  have hopen := (f.pieces_ok.get hp).2.2
  unfold Piece.first at h
  split at h
  · cases h
  · cases h
  · next hb he => exact (hopen he (by omega)).1 hb

/-- Two pieces do not begin with the same instruction. -/
theorem Functy.first_inj {f : Functy} {j k : Nat} {p q : Piece} (hp : f.pieces[j]? = some p)
    (hq : f.pieces[k]? = some q) (h : p.first = q.first) : j = k := by
  cases hf : p.first with
  | off =>
    have hj := Functy.first_off hp hf
    have hk := Functy.first_off hq (h.symm.trans hf)
    omega
  | tac i =>
    obtain ⟨n, hn, hni⟩ := Piece.first_tac hf
    obtain ⟨m, hm, hmi⟩ := Piece.first_tac (h.symm.trans hf)
    exact Functy.piece_unique hp hq hn hm (hni.trans hmi.symm)

/-- What comes first stays the oldest of all that has been passed. -/
theorem stepGraph_first {g : List BasicBlock} {isZero : List Visit → Bool} {e : Visit}
    {t t' : Spot} (h : t.seen.getLast? = some e) (ht : stepGraph g isZero t = some t') :
    t'.seen.getLast? = some e := by
  have hgrow : ∃ es, t'.seen = es ++ t.seen := by
    obtain ⟨here, seen⟩ := t
    cases here with
    | none => cases ht
    | some here =>
      obtain ⟨bb, tacs⟩ := here
      cases tacs with
      | cons n rest =>
        obtain rfl := Option.some_inj.1 ht
        exact ⟨[.tac n.pos], rfl⟩
      | nil =>
        cases hk : bb.endKind with
        | BY_RETURN =>
          simp only [stepGraph, hk, Option.some.injEq] at ht
          subst ht
          exact ⟨[_], rfl⟩
        | _ =>
          simp only [stepGraph, hk, enter, Option.map_eq_some_iff] at ht
          obtain ⟨_, -, rfl⟩ := ht
          exact ⟨_, rfl⟩
  obtain ⟨es, hes⟩ := hgrow
  rw [hes, List.getLast?_append, h]
  rfl

section

variable {f : Functy} {place : Nat → Nat} {g : List BasicBlock} {k : Nat} {p : Piece}
  {bb : BasicBlock}

/-- The first step from the beginning of a block passes its first instruction. -/
theorem Functy.Graph.step_first (hg : f.Graph place g) (isZero : List Visit → Bool)
    (hp : f.pieces[k]? = some p) (hkept : f.Kept k) (htacs : bb.tacList = numbered k p.body)
    (hends : f.Ends place k p.ender bb) :
    ∃ t, stepGraph g isZero ⟨some (bb, bb.tacList), []⟩ = some t ∧ t.seen = [p.first] := by
  rw [htacs]
  cases hb : p.body with
  | cons n ns => exact ⟨_, rfl, by simp [Piece.first, hb]⟩
  | nil =>
    have ho : p.onward = none := by
      obtain ⟨-, p', hp', ho⟩ := hkept
      obtain rfl := Option.some_inj.1 (hp.symm.trans hp')
      exact ho
    have hfirst : ∀ n, p.ender = some n → p.first = .tac n.pos := by
      intro n he
      simp [Piece.first, hb, he]
    have henter : ∀ {j i}, f.Goes place j i → ∀ seen, ∃ t, enter g i seen = some t ∧
        t.seen = seen := by
      intro j i hgo seen
      obtain ⟨c, q, bb, -, -, -, h⟩ := hg.enter_goes hgo seen
      exact ⟨_, h, rfl⟩
    generalize he : p.ender = e at hends
    cases hends with
    | off _ hk hbe =>
      exact ⟨⟨none, [.off]⟩, by simp [stepGraph, hk, hbe], by simp [Piece.first, hb, he]⟩
    | on hm =>
      have := (f.pieces_ok.get hp).2.2 he (by simpa [Functy.more] using hm)
      exact absurd hb this.1
    | @ret _ n _ ht hk hbe =>
      exact ⟨⟨none, [.tac n.pos]⟩, by simp [stepGraph, hk, hbe], by simp [hfirst n he]⟩
    | branch ht => simp [Piece.onward, hb, he, ht] at ho
    | @beqz _ n _ _ ht hk hbe hgo hgo' =>
      obtain ⟨t, h0, hs0⟩ := henter hgo [.tac n.pos]
      obtain ⟨t', h1, hs1⟩ := henter hgo' [.tac n.pos]
      rw [hfirst n he]
      obtain hk | ⟨hk, -⟩ := hk
      · cases hz : isZero [.tac n.pos]
        · exact ⟨t', by simp [stepGraph, hk, hbe, hz, h1], hs1⟩
        · exact ⟨t, by simp [stepGraph, hk, hbe, hz, h0], hs0⟩
      · exact ⟨t, by simp [stepGraph, hk, hbe, h0], hs0⟩
    | @bnez _ n _ _ ht hk hbe hgo hgo' =>
      obtain ⟨t, h0, hs0⟩ := henter hgo [.tac n.pos]
      obtain ⟨t', h1, hs1⟩ := henter hgo' [.tac n.pos]
      rw [hfirst n he]
      obtain hk | ⟨hk, -⟩ := hk
      · cases hz : isZero [.tac n.pos]
        · exact ⟨t, by simp [stepGraph, hk, hbe, hz, h0], hs0⟩
        · exact ⟨t', by simp [stepGraph, hk, hbe, hz, h1], hs1⟩
      · exact ⟨t, by simp [stepGraph, hk, hbe, h0], hs0⟩

/-- What a run passes first tells the block that it began at. -/
theorem Functy.Graph.visits_first (hg : f.Graph place g) (isZero : List Visit → Bool)
    (hp : f.pieces[k]? = some p) (hkept : f.Kept k) (htacs : bb.tacList = numbered k p.body)
    (hends : f.Ends place k p.ender bb) {e : Visit} :
    Visits (stepGraph g isZero) Spot.seen ⟨some (bb, bb.tacList), []⟩ [e] ↔ e = p.first := by
  obtain ⟨t, ht, hseen⟩ := hg.step_first isZero hp hkept htacs hends
  constructor
  · rintro ⟨t', hr, hs⟩
    obtain heq | ⟨t1, h1, hr⟩ := Relation.ReflTransGen.cases_head hr
    · rw [← heq] at hs
      cases hs
    · obtain rfl := Option.some_inj.1 (ht.symm.trans h1)
      have hstep (t t' : Spot) (h : t.seen.getLast? = some p.first)
          (hs : stepGraph g isZero t = some t') : t'.seen.getLast? = some p.first :=
        stepGraph_first h hs
      have hlast := Reaches.invariant hstep hr (by simp [hseen])
      rw [hs] at hlast
      exact Option.some_inj.1 hlast
  · rintro rfl
    exact ⟨t, Reaches.single ht, hseen⟩

end

/-! ## The function and its graph -/

/-- The graph that is built of the function begins at a block, and its runs pass what the runs
of the list pass: the same instructions in the same order, whatever the tests find. -/
def Functy.Preserved (f : Functy) : Prop :=
  ∃ fuel g, flowGraph fuel f = some g ∧ ∃ t, enter g 0 [] = some t ∧
    ∀ isZero es, Visits (stepList f.nodes isZero) Point.seen ⟨some f.nodes, []⟩ es ↔
      Visits (stepGraph g isZero) Spot.seen t es

theorem flowGraph_eq (fuel : Nat) (f : Functy) : flowGraph fuel f = simplify fuel f.blocks := by
  rw [flowGraph, f.gather_eq]
  rfl

theorem Functy.pieces_zero (f : Functy) : ∃ p, f.pieces[0]? = some p := by
  obtain ⟨n, rest, hnodes, hn⟩ := f.nodes_cons
  rw [Functy.pieces, hnodes, pieces_target rest hn f.target_label]
  cases decaf.pieces f.target rest with
  | nil => exact ⟨_, rfl⟩
  | cons p ps => exact ⟨_, rfl⟩

/-- A run that is caught in a ring of BRANCHes passes nothing. -/
theorem Functy.stuck_visits {f : Functy} {isZero : List Visit → Bool} (h : ¬ ∃ q, f.LeadsTo 0 q)
    {es : List Visit}
    (hv : Visits (stepList f.nodes isZero) Point.seen ⟨some f.nodes, []⟩ es) : es = [] := by
  have honward : ∀ {j p}, f.pieces[j]? = some p → (¬ ∃ q, f.LeadsTo j q) →
      ∃ l, p.onward = some l ∧ ¬ ∃ q, f.LeadsTo (f.num l) q := by
    intro j p hp hno
    cases ho : p.onward with
    | none => exact absurd ⟨j, 0, .here hp ho⟩ hno
    | some l => exact ⟨l, rfl, fun ⟨q, c, hq⟩ => hno ⟨q, c + 1, .hop hp ho hq⟩⟩
  obtain ⟨s, hr, rfl⟩ := hv
  let Inv : Point → Prop := fun s => s.seen = [] ∧ ∃ rest j p, s.rest = some rest ∧
    f.pieces[j]? = some p ∧ f.Here rest j p p.body ∧ ¬ ∃ q, f.LeadsTo j q
  have hstep : ∀ s s', Inv s → stepList f.nodes isZero s = some s' → Inv s' := by
    rintro ⟨rest, seen⟩ s' ⟨rfl, rest', j, p, rfl, hp, hhere, hno⟩ hs
    obtain ⟨l, ho, hno'⟩ := honward hp hno
    have hb := (Piece.onward_eq_some ho).1
    rw [hb] at hhere
    obtain ⟨rest, rfl, -, hhere⟩ | ⟨rfl, p', hp', hhere⟩ := Functy.step_branch hp ho hhere hs
    · rw [← hb] at hhere
      exact ⟨rfl, rest, j, p, rfl, hp, hhere, hno⟩
    · exact ⟨rfl, _, f.num l, p', rfl, hp', hhere, hno'⟩
  obtain ⟨p, hp⟩ := f.pieces_zero
  have h0 : Inv ⟨some f.nodes, []⟩ :=
    ⟨rfl, f.nodes, 0, p, rfl, hp, Functy.here_start hp List.drop_zero.symm, h⟩
  exact (Reaches.invariant hstep hr h0).1

theorem Functy.preserved_of (f : Functy) (hring : f.NoRing) (hfirst : f.EntersFirst) :
    f.Preserved := by
  obtain ⟨fuel, g, hsimp⟩ := (simplify_total_iff f).2 hring
  obtain ⟨place, hg⟩ := graph_of_simplify hsimp
  obtain ⟨q, ⟨c, hlead⟩, hbefore⟩ := hfirst
  have hkept := hlead.kept (Or.inl rfl)
  obtain ⟨p, hp⟩ := hkept.piece
  obtain ⟨bb, hbb, -⟩ := hg.block hp hkept
  have henter : enter g 0 [] = some ⟨some (bb, bb.tacList), []⟩ := by
    rw [← hg.first hkept hbefore, enter, hbb]
    rfl
  refine ⟨fuel, g, (flowGraph_eq fuel f).trans hsimp, _, henter, ?_⟩
  intro isZero es
  obtain ⟨p0, hp0⟩ := f.pieces_zero
  obtain ⟨m, -, hR⟩ := hg.arrive [] hp0 hlead hkept hbb
    (Functy.here_start hp0 List.drop_zero.symm)
  exact (hg.simulates isZero).visits_iff hR es

theorem Functy.of_preserved (f : Functy) (h : f.Preserved) : f.NoRing ∧ f.EntersFirst := by
  obtain ⟨fuel, g, hflow, t, henter, hsame⟩ := h
  have hsimp := (flowGraph_eq fuel f).symm.trans hflow
  refine ⟨(simplify_total_iff f).1 ⟨fuel, g, hsimp⟩, ?_⟩
  obtain ⟨place, hg⟩ := graph_of_simplify hsimp
  have hne : g ≠ [] := by
    rintro rfl
    cases henter
  -- the graph begins at the first piece that is kept
  obtain ⟨k, hk, hleast⟩ : ∃ k, f.Kept k ∧ ∀ i < k, ¬ f.Kept i := by
    classical
    obtain ⟨k, hk⟩ := hg.keeps hne
    exact ⟨Nat.find ⟨k, hk⟩, Nat.find_spec ⟨k, hk⟩, fun i hi => Nat.find_min ⟨k, hk⟩ hi⟩
  obtain ⟨p, hp⟩ := hk.piece
  obtain ⟨bb, hbb, htacs, hends⟩ := hg.block hp hk
  rw [hg.first hk hleast] at hbb
  rw [enter, hbb] at henter
  obtain rfl := Option.some_inj.1 henter
  have hvisit := (hsame (fun _ => true) [p.first]).2
    ((hg.visits_first _ hp hk htacs hends).2 rfl)
  -- and the list begins where its BRANCHes lead
  by_cases hlead : ∃ q, f.LeadsTo 0 q
  · obtain ⟨q, c, hlead⟩ := hlead
    have hq := hlead.kept (Or.inl rfl)
    obtain ⟨p', hp'⟩ := hq.piece
    obtain ⟨bb', hbb', htacs', hends'⟩ := hg.block hp' hq
    obtain ⟨p0, hp0⟩ := f.pieces_zero
    obtain ⟨m, -, hR⟩ := hg.arrive [] hp0 hlead hq hbb'
      (Functy.here_start hp0 List.drop_zero.symm)
    have heq := (hg.visits_first _ hp' hq htacs' hends').1
      (((hg.simulates fun _ => true).visits_iff hR _).1 hvisit)
    obtain rfl := Functy.first_inj hp hp' heq
    exact ⟨k, ⟨c, hlead⟩, hleast⟩
  · cases Functy.stuck_visits hlead hvisit

/-- The graph of a function does what its list does exactly when no way out of a block runs into
a ring of BRANCHes, and the BRANCHes that the function begins with lead to the first block that
is kept: `emitAsm` enters the graph there. -/
theorem flow_graph_iff (f : Functy) : f.Preserved ↔ f.NoRing ∧ f.EntersFirst :=
  ⟨f.of_preserved, fun h => f.preserved_of h.1 h.2⟩

/-! ## A loop at the beginning of a function -/

/-- `int f(int n) { for (; n > 0; n = n - 1) {} return n; }`, as `visitForLoop` translates it:
the BRANCH to the condition is the first instruction. -/
def loopFirst : Functy where
  label := ⟨0⟩
  head := [.mark ⟨0⟩, .branch ⟨1⟩,
    .mark ⟨2⟩, .loadImm4 ⟨2⟩ 1, .binary .sub ⟨3⟩ ⟨1⟩ ⟨2⟩, .unary .assign ⟨1⟩ ⟨3⟩,
    .mark ⟨1⟩, .loadImm4 ⟨4⟩ 0, .binary .gtr ⟨5⟩ ⟨1⟩ ⟨4⟩, .beqz ⟨5⟩ ⟨3⟩, .branch ⟨2⟩,
    .mark ⟨3⟩, .ret (some ⟨1⟩)]
  opens := rfl
  markedOnce := by decide
  jumpsMarked := by decide
  testsFollowed := by decide

/-- Its graph is entered at the update of the loop. -/
theorem loopFirst_not_preserved : ¬ loopFirst.Preserved := by
  intro h
  obtain ⟨-, q, ⟨c, hlead⟩, hbefore⟩ := loopFirst.of_preserved h
  have hcond : loopFirst.LeadsIn 1 0 2 := .hop rfl rfl (.here rfl rfl)
  obtain ⟨rfl, -⟩ := hlead.unique hcond
  have hupdate : loopFirst.Kept 1 := ⟨Or.inr ⟨3, by decide⟩, _, rfl, rfl⟩
  exact hbefore 1 (by decide) hupdate

end nehcpu.decaf
