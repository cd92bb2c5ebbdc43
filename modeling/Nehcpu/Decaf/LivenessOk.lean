-- The liveness analysis of a graph stops, and its sets hold every temp that some path still uses.
import Mathlib.Algebra.Order.BigOperators.Group.List
import Mathlib.Algebra.Order.Group.Nat
import Mathlib.Algebra.Group.Action.Defs
import Mathlib.Data.Finset.Card
import Mathlib.Data.Finset.Union
import Mathlib.Algebra.Ring.Nat
import Nehcpu.Decaf.FlowCorrect
import Nehcpu.Decaf.Liveness

namespace nehcpu.decaf

open dataflow

/-! ## The graph -/

/-- What the analysis relies on: each block has its place as its number, its edges lead to
blocks, also the unused ones behind a return, and no jump is among its instructions. -/
structure WellNumbered (g : List BasicBlock) : Prop where
  num : ∀ {i} {bb : BasicBlock}, g[i]? = some bb → bb.bbNum = i
  next : ∀ bb ∈ g, bb.next.1 < g.length ∧ bb.next.2 < g.length
  plain : ∀ bb ∈ g, ∀ n ∈ bb.tacList, n.tac.isPlain = true

theorem filter_get_inv {α : Type} {keep : α → Bool} {l : List α} {i : Nat} {a : α}
    (h : (l.filter keep)[i]? = some a) :
    ∃ k, l[k]? = some a ∧ (l.take k).countP keep = i := by
  induction l generalizing i with
  | nil => simp at h
  | cons x xs ih =>
    by_cases hx : keep x = true
    · rw [List.filter_cons_of_pos hx] at h
      cases i with
      | zero => exact ⟨0, h, rfl⟩
      | succ i =>
        obtain ⟨k, hk, hc⟩ := ih h
        exact ⟨k + 1, hk, by simp [hx, hc]⟩
    · rw [List.filter_cons_of_neg hx] at h
      obtain ⟨k, hk, hc⟩ := ih h
      exact ⟨k + 1, hk, by simp [hx, hc]⟩

theorem redirect_return {bbs : List BasicBlock} {fuel : Nat} {bb b : BasicBlock}
    (h : redirect bbs fuel bb = some b) (hk : b.endKind = .BY_RETURN) : b = bb := by
  unfold redirect at h
  split at h
  · exact (Option.some_inj.1 h).symm
  · next hn =>
    rw [not_or] at hn
    obtain ⟨b0, -, h⟩ := Option.bind_eq_some_iff.1 h
    split at h
    · obtain ⟨b1, -, h⟩ := Option.bind_eq_some_iff.1 h
      obtain rfl := Option.some_inj.1 h
      dsimp only at hk
      split at hk
      · cases hk
      · exact absurd hk hn.2
    · obtain rfl := Option.some_inj.1 h
      exact absurd hk hn.2

theorem toBlock_return {num : Label → Nat} {k : Nat} {more : Bool} {p : Piece}
    (h : (toBlock num k more p).endKind = .BY_RETURN) : (toBlock num k more p).next = (0, 0) := by
  unfold toBlock at h ⊢
  cases he : p.ender with
  | none => cases more <;> simp_all [newBlock]
  | some n => cases ht : n.tac <;> simp_all [newBlock]

theorem newBBNum_lt {bbs : List BasicBlock} {i n : Nat} (h : newBBNum bbs i = some n) :
    n < (bbs.filter fun bb => !bb.cancelled).length := by
  obtain ⟨b, hb, h⟩ := Option.bind_eq_some_iff.1 h
  split at h
  · cases h
  · next hc =>
    obtain rfl := Option.some_inj.1 h
    exact (List.getElem?_eq_some_iff.1 (filter_get hb (by simpa using hc))).1

theorem renumber_cases {bbs : List BasicBlock} {b bb : BasicBlock} {i : Nat}
    (h : renumber bbs b = some bb) (hi : newBBNum bbs b.bbNum = some i) :
    bb.bbNum = i ∧ bb.tacList = b.tacList ∧
      ((b.endKind = .BY_RETURN ∧ bb.next = b.next) ∨
        (newBBNum bbs b.next.1 = some bb.next.1 ∧ newBBNum bbs b.next.2 = some bb.next.2)) := by
  simp only [renumber, hi, Option.bind_eq_bind, Option.bind_some] at h
  split at h
  · next hk =>
    obtain rfl := Option.some_inj.1 h
    exact ⟨rfl, rfl, Or.inl ⟨hk, rfl⟩⟩
  · simp only [Option.bind_eq_some_iff] at h
    obtain ⟨n0, h0, n1, h1, h⟩ := h
    obtain rfl := Option.some_inj.1 h
    exact ⟨rfl, rfl, Or.inr ⟨h0, h1⟩⟩

/-- A block of a finished graph, with the piece that it was made of. -/
theorem block_of_simplify {f : Functy} {fuel : Nat} {g bbs : List BasicBlock}
    (hbbs : f.counted.mapM (redirect f.counted fuel) = some bbs)
    (hg : (bbs.filter fun bb => !bb.cancelled).mapM (renumber bbs) = some g) {i : Nat}
    {bb : BasicBlock} (hbb : g[i]? = some bb) :
    ∃ k p b, f.pieces[k]? = some p ∧ newBBNum bbs k = some i ∧ renumber bbs b = some bb ∧
      b.bbNum = k ∧ b.tacList = numbered k p.body ∧
      (b.endKind = .BY_RETURN → b.next = (0, 0)) := by
  obtain ⟨hi, -⟩ := List.getElem?_eq_some_iff.1 hbb
  rw [mapM_length hg] at hi
  obtain ⟨b, hb⟩ : ∃ b, (bbs.filter fun bb => !bb.cancelled)[i]? = some b :=
    ⟨_, List.getElem?_eq_getElem hi⟩
  obtain ⟨bb', hbb', hr⟩ := mapM_get hg hb
  obtain rfl := Option.some_inj.1 (hbb.symm.trans hbb')
  obtain ⟨k, hk, hc⟩ := filter_get_inv hb
  have hcan : b.cancelled = false := by
    simpa using (List.mem_filter.1 (List.mem_of_getElem? hb)).2
  have hlt := (List.getElem?_eq_some_iff.1 hk).1
  rw [mapM_length hbbs, f.counted_length] at hlt
  obtain ⟨p, hp⟩ : ∃ p, f.pieces[k]? = some p := ⟨_, List.getElem?_eq_getElem hlt⟩
  obtain ⟨b', hb', hkept, hkind⟩ := redirected_get hbbs hp
  obtain rfl := Option.some_inj.1 (hk.symm.trans hb')
  have hkeep : f.Kept k := by
    by_contra hn
    rw [hkept.2 hn] at hcan
    cases hcan
  obtain ⟨hnum, htacs, -⟩ := hkind hkeep
  refine ⟨k, p, b, hp, ?_, hr, hnum, htacs, ?_⟩
  · simp [newBBNum, hk, hcan, hc]
  · intro hret
    obtain ⟨d, c, hget, -⟩ := f.counted_get hp
    obtain ⟨b', hb', hred⟩ := mapM_get hbbs hget
    obtain rfl := Option.some_inj.1 (hk.symm.trans hb')
    have hb := redirect_return hred hret
    rw [hb] at hret ⊢
    exact toBlock_return hret

theorem wellNumbered_of_flowGraph {f : Functy} {fuel : Nat} {g : List BasicBlock}
    (h : flowGraph fuel f = some g) : WellNumbered g := by
  obtain ⟨bbs, hbbs, hg⟩ := simplify_eq_some.1 ((flowGraph_eq fuel f).symm.trans h)
  constructor
  · intro i bb hbb
    obtain ⟨k, p, b, -, hnew, hr, rfl, -, -⟩ := block_of_simplify hbbs hg hbb
    exact (renumber_cases hr hnew).1
  · intro bb hmem
    obtain ⟨i, hbb⟩ := List.mem_iff_getElem?.1 hmem
    obtain ⟨k, p, b, -, hnew, hr, rfl, -, hret⟩ := block_of_simplify hbbs hg hbb
    obtain ⟨hk, hnext⟩ | ⟨h0, h1⟩ := (renumber_cases hr hnew).2.2
    · have hpos := (List.getElem?_eq_some_iff.1 hbb).1
      rw [hnext, hret hk]
      exact ⟨Nat.zero_lt_of_lt hpos, Nat.zero_lt_of_lt hpos⟩
    · rw [mapM_length hg]
      exact ⟨newBBNum_lt h0, newBBNum_lt h1⟩
  · intro bb hmem n hn
    obtain ⟨i, hbb⟩ := List.mem_iff_getElem?.1 hmem
    obtain ⟨k, p, b, hp, hnew, hr, rfl, htacs, -⟩ := block_of_simplify hbbs hg hbb
    rw [(renumber_cases hr hnew).2.1, htacs] at hn
    obtain ⟨m, hm, rfl⟩ := List.mem_map.1 hn
    exact (f.pieces_ok.get hp).1 m hm

/-! ## Uses and definitions -/

/-- The temps whose registers the code of an instruction reads. -/
def Tac.uses : Tac → List Temp
  | .binary _ _ op1 op2 => [op1, op2]
  | .unary _ _ op1 | .load _ op1 _ | .indirectCall _ op1 => [op1]
  | .store op0 op1 _ | .mult op0 op1 => [op0, op1]
  | .parm op0 | .beqz op0 _ | .bnez op0 _ => [op0]
  | .ret op0 => op0.toList
  | _ => []

/-- The temp whose register it writes. -/
def Tac.defines : Tac → Option Temp
  | .binary _ op0 _ _ | .unary _ op0 _ | .loadVtbl op0 _ | .load op0 _ _ | .loadImm4 op0 _
  | .loadStrConst op0 _ | .mflo op0 => some op0
  | .indirectCall op0 _ | .directCall op0 _ => op0
  | _ => none

theorem mem_addIf {live : Finset Temp} {o : Option Temp} {t : Temp} :
    t ∈ addIf live o ↔ o = some t ∨ t ∈ live := by
  cases o with
  | none => simp [addIf]
  | some x => simp [addIf, eq_comm]

theorem mem_removeIf {live : Finset Temp} {o : Option Temp} {t : Temp} :
    t ∈ removeIf live o ↔ t ∈ live ∧ o ≠ some t := by
  cases o with
  | none => simp [removeIf]
  | some x => simp [removeIf, and_comm, eq_comm]

/-- The switch of the second pass knows every instruction that stands in a block. -/
theorem mem_before {tac : Tac} (hp : tac.isPlain = true) {live : Finset Temp} {t : Temp} :
    t ∈ tac.before live ↔ t ∈ tac.uses ∨ (t ∈ live ∧ tac.defines ≠ some t) := by
  cases tac <;> simp_all [Tac.before, Tac.uses, Tac.defines, Tac.isPlain, Tac.isJump,
    mem_removeIf] <;> grind

/-- So does the switch of the first pass. -/
theorem Marks.tac_eq {tac : Tac} (hp : tac.isPlain = true) (bbNum : Nat) (m : Marks) :
    m.tac bbNum tac = (tac.uses.foldl (Marks.use bbNum) m).defineIf bbNum tac.defines := by
  cases tac <;> first | rfl | simp [Tac.isPlain, Tac.isJump, Tac.isMemo, Tac.isMark,
    Tac.marked?] at hp

/-! ## One block -/

section

variable {b : Nat} {m : Marks} {t x : Temp}

theorem Marks.use_visited :
    (m.use b x).lastVisitedBB t = b ↔ t = x ∨ m.lastVisitedBB t = b := by
  unfold Marks.use
  split
  · by_cases h : t = x
    · simp [h]
    · simp [h]
  · next hx =>
    rw [not_not] at hx
    constructor
    · exact Or.inr
    · rintro (rfl | h)
      · exact hx
      · exact h

theorem Marks.mem_use :
    t ∈ (m.use b x).liveUse ↔ (t = x ∧ m.lastVisitedBB t ≠ b) ∨ t ∈ m.liveUse := by
  unfold Marks.use
  split <;> grind

theorem Marks.use_defs : (m.use b x).defs = m.defs := by
  unfold Marks.use
  split <;> rfl

theorem Marks.define_liveUse : (m.define b x).liveUse = m.liveUse := by
  unfold Marks.define
  split <;> rfl

/-- A temp that is not the one defined is as it was. -/
theorem Marks.define_other (h : t ≠ x) :
    (m.define b x).lastVisitedBB t = m.lastVisitedBB t ∧
      (t ∈ (m.define b x).defs ↔ t ∈ m.defs) := by
  unfold Marks.define
  split <;> simp [h]

/-- A stamp is left alone, or it becomes the number of the block. -/
theorem Marks.use_stamp : (m.use b x).lastVisitedBB t = b ∨
    (m.use b x).lastVisitedBB t = m.lastVisitedBB t := by
  unfold Marks.use
  split
  · by_cases h : t = x <;> simp [h]
  · exact Or.inr rfl

theorem Marks.define_stamp : (m.define b x).lastVisitedBB t = b ∨
    (m.define b x).lastVisitedBB t = m.lastVisitedBB t := by
  unfold Marks.define
  split
  · by_cases h : t = x <;> simp [h]
  · exact Or.inr rfl

end

section

variable {b : Nat} {m : Marks} {t : Temp}

theorem Marks.useAll_visited {ts : List Temp} :
    (ts.foldl (Marks.use b) m).lastVisitedBB t = b ↔
      t ∈ ts ∨ m.lastVisitedBB t = b := by
  induction ts generalizing m with
  | nil => simp
  | cons x ts ih => simp [ih, Marks.use_visited, or_left_comm, or_assoc]

theorem Marks.mem_useAll {ts : List Temp} :
    t ∈ (ts.foldl (Marks.use b) m).liveUse ↔
      (t ∈ ts ∧ m.lastVisitedBB t ≠ b) ∨ t ∈ m.liveUse := by
  induction ts generalizing m with
  | nil => simp
  | cons x ts ih =>
    simp only [List.foldl_cons, ih, List.mem_cons, Marks.mem_use, ne_eq, Marks.use_visited]
    grind

theorem Marks.useAll_defs {ts : List Temp} :
    (ts.foldl (Marks.use b) m).defs = m.defs := by
  induction ts generalizing m with
  | nil => rfl
  | cons x ts ih => rw [List.foldl_cons, ih, Marks.use_defs]

theorem Marks.useAll_stamp {ts : List Temp} :
    (ts.foldl (Marks.use b) m).lastVisitedBB t = b ∨
      (ts.foldl (Marks.use b) m).lastVisitedBB t = m.lastVisitedBB t := by
  induction ts generalizing m with
  | nil => exact Or.inr rfl
  | cons x ts ih =>
    obtain h | h := @ih (m.use b x)
    · exact Or.inl h
    · rw [List.foldl_cons, h]
      exact Marks.use_stamp

theorem Marks.defineIf_liveUse {o : Option Temp} : (m.defineIf b o).liveUse = m.liveUse := by
  cases o with
  | none => rfl
  | some x => exact Marks.define_liveUse

theorem Marks.defineIf_other {o : Option Temp} (h : o ≠ some t) :
    (m.defineIf b o).lastVisitedBB t = m.lastVisitedBB t ∧
      (t ∈ (m.defineIf b o).defs ↔ t ∈ m.defs) := by
  cases o with
  | none => exact ⟨rfl, Iff.rfl⟩
  | some x => exact Marks.define_other fun hx => h (congrArg some hx.symm)

theorem Marks.defineIf_stamp {o : Option Temp} : (m.defineIf b o).lastVisitedBB t = b ∨
    (m.defineIf b o).lastVisitedBB t = m.lastVisitedBB t := by
  cases o with
  | none => exact Or.inr rfl
  | some x => exact Marks.define_stamp

theorem Marks.mem_tac {tac : Tac} (hp : tac.isPlain = true) :
    t ∈ (m.tac b tac).liveUse ↔
      (t ∈ tac.uses ∧ m.lastVisitedBB t ≠ b) ∨ t ∈ m.liveUse := by
  rw [Marks.tac_eq hp, Marks.defineIf_liveUse, Marks.mem_useAll]

/-- An instruction that neither uses nor defines a temp leaves its marks alone. -/
theorem Marks.tac_other {tac : Tac} (hp : tac.isPlain = true) (hu : t ∉ tac.uses)
    (hd : tac.defines ≠ some t) :
    ((m.tac b tac).lastVisitedBB t = b ↔ m.lastVisitedBB t = b) ∧
      (t ∈ (m.tac b tac).defs ↔ t ∈ m.defs) := by
  obtain ⟨hs, hdefs⟩ := Marks.defineIf_other (b := b)
    (m := tac.uses.foldl (Marks.use b) m) hd
  rw [Marks.tac_eq hp, hs, hdefs, Marks.useAll_visited, Marks.useAll_defs]
  exact ⟨or_iff_right hu, Iff.rfl⟩

theorem Marks.tac_stamp {tac : Tac} (hp : tac.isPlain = true) :
    (m.tac b tac).lastVisitedBB t = b ∨
      (m.tac b tac).lastVisitedBB t = m.lastVisitedBB t := by
  rw [Marks.tac_eq hp]
  obtain h | h := Marks.defineIf_stamp (b := b) (t := t)
    (m := tac.uses.foldl (Marks.use b) m) (o := tac.defines)
  · exact Or.inl h
  · rw [h]
    exact Marks.useAll_stamp

end

/-- The marks that the instructions of a block leave. -/
def marksOf (b : Nat) (m : Marks) (tacs : List Node) : Marks :=
  tacs.foldl (fun (m : Marks) n => m.tac b n.tac) m

section

variable {b : Nat} {t : Temp} {tacs : List Node} (hp : ∀ n ∈ tacs, n.tac.isPlain = true)

include hp

theorem marksOf_mono {m : Marks} (h : t ∈ m.liveUse) : t ∈ (marksOf b m tacs).liveUse := by
  induction tacs generalizing m with
  | nil => exact h
  | cons n tacs ih =>
    apply ih fun k hk => hp k (List.mem_cons_of_mem n hk)
    rw [Marks.mem_tac (hp n List.mem_cons_self)]
    exact Or.inr h

theorem marksOf_stamp {m : Marks} : (marksOf b m tacs).lastVisitedBB t = b ∨
    (marksOf b m tacs).lastVisitedBB t = m.lastVisitedBB t := by
  induction tacs generalizing m with
  | nil => exact Or.inr rfl
  | cons n tacs ih =>
    obtain h | h := ih (fun k hk => hp k (List.mem_cons_of_mem n hk)) (m := m.tac b n.tac)
    · exact Or.inl h
    · rw [marksOf, List.foldl_cons, ← marksOf, h]
      exact Marks.tac_stamp (hp n List.mem_cons_self)

/-- A temp that the block has not met yet, and that is live in front of the rest of it, is put
into `liveUse` by the rest, or it is live behind the rest, which does not define it. -/
theorem marksOf_through {m : Marks} {live : Finset Temp} (hs : m.lastVisitedBB t ≠ b)
    (hd : t ∉ m.defs) (ht : t ∈ through live tacs) :
    t ∈ (marksOf b m tacs).liveUse ∨
      (t ∈ live ∧ (marksOf b m tacs).lastVisitedBB t ≠ b ∧
        t ∉ (marksOf b m tacs).defs) := by
  induction tacs generalizing m with
  | nil => exact Or.inr ⟨ht, hs, hd⟩
  | cons n tacs ih =>
    have hn := hp n List.mem_cons_self
    have hrest := fun k hk => hp k (List.mem_cons_of_mem n hk)
    by_cases hu : t ∈ n.tac.uses
    · left
      apply marksOf_mono hrest
      rw [Marks.mem_tac hn]
      exact Or.inl ⟨hu, hs⟩
    · obtain h | ⟨hlive, hdef⟩ := (mem_before hn).1 ht
      · exact absurd h hu
      · obtain ⟨hs', hd'⟩ := Marks.tac_other (b := b) (m := m) hn hu hdef
        exact ih hrest (by rwa [ne_eq, hs']) (by rwa [hd']) hlive

end

/-- The `liveUse` and `def` of a block account for all that is live in front of it. -/
theorem computeDefAndLiveUse_through {bb : BasicBlock} {stamps : Temp → Int}
    (hp : ∀ n ∈ bb.tacList, n.tac.isPlain = true) {t : Temp} (hs : stamps t ≠ bb.bbNum)
    {out : Finset Temp} (ht : t ∈ through (addIf out bb.var) bb.tacList) :
    t ∈ (computeDefAndLiveUse stamps bb).liveUse ∨
      (t ∈ out ∧ t ∉ (computeDefAndLiveUse stamps bb).defs) := by
  have h := marksOf_through hp (m := ⟨stamps, ∅, ∅⟩) hs (Finset.notMem_empty t) ht
  unfold computeDefAndLiveUse
  dsimp only
  rw [← marksOf]
  cases hv : bb.var with
  | none =>
    obtain h | ⟨hlive, -, hd⟩ := h
    · exact Or.inl h
    · rw [hv] at hlive
      exact Or.inr ⟨hlive, hd⟩
  | some v =>
    simp only [Marks.useIf, Marks.mem_use, Marks.use_defs]
    obtain h | ⟨hlive, hs', hd⟩ := h
    · exact Or.inl (Or.inr h)
    · rw [hv, mem_addIf] at hlive
      obtain hvt | hout := hlive
      · obtain rfl := Option.some_inj.1 hvt
        exact Or.inl (Or.inl ⟨rfl, hs'⟩)
      · exact Or.inr ⟨hout, hd⟩

theorem computeDefAndLiveUse_stamp {bb : BasicBlock} (stamps : Temp → Int)
    (hp : ∀ n ∈ bb.tacList, n.tac.isPlain = true) (t : Temp) :
    (computeDefAndLiveUse stamps bb).lastVisitedBB t = bb.bbNum ∨
      (computeDefAndLiveUse stamps bb).lastVisitedBB t = stamps t := by
  have h := marksOf_stamp hp (b := bb.bbNum) (t := t) (m := ⟨stamps, ∅, ∅⟩)
  unfold computeDefAndLiveUse
  dsimp only
  rw [← marksOf]
  cases bb.var with
  | none => exact h
  | some v =>
    obtain h' | h' := Marks.use_stamp (b := bb.bbNum) (t := t) (x := v)
      (m := marksOf bb.bbNum ⟨stamps, ∅, ∅⟩ bb.tacList)
    · exact Or.inl h'
    · rw [Marks.useIf, h']
      exact h

/-! ## The sets of the blocks -/

/-- What the first loop leaves for the second: `liveUse` and `def` account for all that is live
in front of the block, whatever is live behind it. -/
def LiveBlock.Accounts (b : LiveBlock) : Prop :=
  ∀ out t, t ∈ through (addIf out b.bb.var) b.bb.tacList → t ∈ b.liveUse ∨ (t ∈ out ∧ t ∉ b.defs)

theorem computeAll_blocks (stamps : Temp → Int) (g : List BasicBlock) :
    (computeAll stamps g).map LiveBlock.bb = g := by
  induction g generalizing stamps with
  | nil => rfl
  | cons bb g ih => simp [computeAll, ih]

theorem computeAll_sets (stamps : Temp → Int) (g : List BasicBlock) :
    ∀ b ∈ computeAll stamps g, b.liveIn = b.liveUse ∧ b.liveOut = ∅ := by
  induction g generalizing stamps with
  | nil => simp [computeAll]
  | cons bb g ih =>
    intro b hb
    obtain rfl | hb := List.mem_cons.1 hb
    · exact ⟨rfl, rfl⟩
    · exact ih _ b hb

/-- The stamps are numbers of blocks that came before. -/
theorem computeAll_accounts (stamps : Temp → Int) {g : List BasicBlock} {k : Nat}
    (hnum : ∀ i (bb : BasicBlock), g[i]? = some bb → bb.bbNum = k + i)
    (hp : ∀ bb ∈ g, ∀ n ∈ bb.tacList, n.tac.isPlain = true) (hs : ∀ t, stamps t < k) :
    ∀ b ∈ computeAll stamps g, b.Accounts := by
  induction g generalizing stamps k with
  | nil => simp [computeAll]
  | cons bb g ih =>
    have hk : bb.bbNum = k := hnum 0 bb rfl
    have hbb := hp bb List.mem_cons_self
    intro b hb
    obtain rfl | hb := List.mem_cons.1 hb
    · intro out t ht
      apply computeDefAndLiveUse_through hbb _ ht
      have := hs t
      omega
    · refine ih _ (k := k + 1) ?_ (fun c hc => hp c (List.mem_cons_of_mem bb hc)) ?_ b hb
      · intro i c hc
        rw [hnum (i + 1) c hc]
        omega
      · intro t
        have := hs t
        obtain h | h := computeDefAndLiveUse_stamp stamps hbb t <;>
          rw [h] <;> omega

/-- `liveIn` of the block with a number. -/
def liveInAt (bbs : List LiveBlock) (i : Nat) : Finset Temp :=
  match bbs[i]? with
  | some b => b.liveIn
  | none => ∅

theorem liveInAt_get {bbs : List LiveBlock} {i : Nat} {b : LiveBlock} (h : bbs[i]? = some b) :
    liveInAt bbs i = b.liveIn := by
  simp [liveInAt, h]

theorem liveInAt_set {bbs : List LiveBlock} {i : Nat} (hi : i < bbs.length) (b : LiveBlock)
    (j : Nat) : liveInAt (bbs.set i b) j = if j = i then b.liveIn else liveInAt bbs j := by
  simp only [liveInAt, List.getElem?_set]
  by_cases h : j = i
  · simp [h, hi]
  · simp [h, Ne.symm h]

/-- What is live where a block goes on. -/
def succIn (bbs : List LiveBlock) (bb : BasicBlock) : Finset Temp :=
  liveInAt bbs bb.next.1 ∪ liveInAt bbs bb.next.2

/-- A block whose `liveOut` has been reduced by `def` and put into `liveIn`. -/
def LiveBlock.reduced (b : LiveBlock) (bbs : List LiveBlock) : LiveBlock :=
  let liveOut := (b.liveOut ∪ succIn bbs b.bb) \ b.defs
  { b with liveIn := b.liveIn ∪ liveOut, liveOut := liveOut }

/-- What the visit of a block makes of it. -/
def LiveBlock.visited (b : LiveBlock) (bbs : List LiveBlock) (i : Nat) : LiveBlock :=
  { b.reduced bbs with
    liveOut := (b.reduced bbs).liveOut ∪ succIn (bbs.set i (b.reduced bbs)) b.bb }

theorem visit_eq {bbs : List LiveBlock} {i : Nat} {b : LiveBlock} (hb : bbs[i]? = some b)
    (h0 : b.bb.next.1 < bbs.length) (h1 : b.bb.next.2 < bbs.length) :
    visit bbs i =
      some (bbs.set i (b.visited bbs i), decide ((b.visited bbs i).liveIn ≠ b.liveIn)) := by
  have hget : ∀ {l : List LiveBlock} {j : Nat}, j < l.length →
      ∃ c, l[j]? = some c ∧ c.liveIn = liveInAt l j := by
    intro l j hj
    exact ⟨_, List.getElem?_eq_getElem hj, (liveInAt_get (List.getElem?_eq_getElem hj)).symm⟩
  obtain ⟨s0, hs0, hin0⟩ := hget h0
  obtain ⟨s1, hs1, hin1⟩ := hget h1
  obtain ⟨r0, hr0, hrin0⟩ :=
    hget (l := bbs.set i (b.reduced bbs)) (j := b.bb.next.1) (by simpa using h0)
  obtain ⟨r1, hr1, hrin1⟩ :=
    hget (l := bbs.set i (b.reduced bbs)) (j := b.bb.next.2) (by simpa using h1)
  have hred : ({ b with
      liveIn := b.liveIn ∪
        (b.liveOut ∪ (liveInAt bbs b.bb.next.1 ∪ liveInAt bbs b.bb.next.2)) \ b.defs
      liveOut := (b.liveOut ∪ (liveInAt bbs b.bb.next.1 ∪ liveInAt bbs b.bb.next.2)) \ b.defs } :
        LiveBlock) = b.reduced bbs := rfl
  simp only [visit, hb, hs0, hs1, hin0, hin1, Option.bind_eq_bind, Option.bind_some,
    Finset.union_assoc, hred, hr0, hr1, hrin0, hrin1, List.set_set]
  rfl

/-! ## The loop -/

/-- What the loop keeps: the blocks, what the first loop found, and a bound for all sets. -/
structure Shape (g : List BasicBlock) (bound : Finset Temp) (bbs : List LiveBlock) : Prop where
  blocks : bbs.map LiveBlock.bb = g
  accounts : ∀ b ∈ bbs, b.Accounts ∧ b.liveUse ⊆ b.liveIn
  bounded : ∀ b ∈ bbs, b.liveIn ⊆ bound ∧ b.liveOut ⊆ bound

/-- The block's sets fit those of the blocks that it goes on to. -/
def Settled (bbs : List LiveBlock) (b : LiveBlock) : Prop :=
  succIn bbs b.bb ⊆ b.liveOut ∧ b.liveOut \ b.defs ⊆ b.liveIn

/-- How much is known to be live. -/
def size (bbs : List LiveBlock) : Nat := (bbs.map fun b => b.liveIn.card).sum

theorem size_set {bbs : List LiveBlock} {i : Nat} {b : LiveBlock} (b' : LiveBlock) (hb : bbs[i]? = some b) :
    size (bbs.set i b') + b.liveIn.card = size bbs + b'.liveIn.card := by
  induction bbs generalizing i with
  | nil => simp at hb
  | cons c bbs ih =>
    cases i with
    | zero =>
      obtain rfl := Option.some_inj.1 hb
      simp only [size, List.set_cons_zero, List.map_cons, List.sum_cons]
      omega
    | succ i =>
      have h := ih hb
      simp only [size, List.set_cons_succ, List.map_cons, List.sum_cons] at h ⊢
      omega

section

variable {g : List BasicBlock} {bound : Finset Temp} {bbs : List LiveBlock} {i : Nat}
  {b : LiveBlock}

theorem liveIn_subset_visited (b : LiveBlock) (bbs : List LiveBlock) (i : Nat) :
    b.liveIn ⊆ (b.visited bbs i).liveIn := Finset.subset_union_left

theorem Shape.length (h : Shape g bound bbs) : bbs.length = g.length := by
  rw [← h.blocks, List.length_map]

theorem Shape.mem (h : Shape g bound bbs) (hb : b ∈ bbs) : b.bb ∈ g := by
  rw [← h.blocks]
  exact List.mem_map_of_mem hb

theorem Shape.liveInAt_subset (h : Shape g bound bbs) (j : Nat) : liveInAt bbs j ⊆ bound := by
  unfold liveInAt
  split
  · next c hc => exact (h.bounded c (List.mem_of_getElem? hc)).1
  · exact Finset.empty_subset bound

theorem Shape.size_le (h : Shape g bound bbs) : size bbs ≤ g.length * bound.card := by
  have hle := List.sum_le_card_nsmul (bbs.map fun b => b.liveIn.card) bound.card ?_
  · rwa [List.length_map, h.length, smul_eq_mul] at hle
  · intro n hn
    obtain ⟨b, hb, rfl⟩ := List.mem_map.1 hn
    exact Finset.card_le_card (h.bounded b hb).1

theorem Shape.succIn_subset (h : Shape g bound bbs) (bb : BasicBlock) : succIn bbs bb ⊆ bound :=
  Finset.union_subset (h.liveInAt_subset _) (h.liveInAt_subset _)

/-- A block may be set to one with the same instructions and larger sets. -/
theorem Shape.set {b' : LiveBlock} (h : Shape g bound bbs) (hb : bbs[i]? = some b)
    (hbb : b'.bb = b.bb) (hacc : b'.Accounts) (huse : b'.liveUse ⊆ b'.liveIn)
    (hin : b'.liveIn ⊆ bound) (hout : b'.liveOut ⊆ bound) :
    Shape g bound (bbs.set i b') := by
  have hget : g[i]? = some b'.bb := by
    rw [← h.blocks, List.getElem?_map, hb, hbb]
    rfl
  constructor
  · obtain ⟨hi, hg⟩ := List.getElem?_eq_some_iff.1 hget
    rw [List.map_set, h.blocks, ← hg, List.set_getElem_self]
  · intro c hc
    obtain hc | rfl := List.mem_or_eq_of_mem_set hc
    · exact h.accounts c hc
    · exact ⟨hacc, huse⟩
  · intro c hc
    obtain hc | rfl := List.mem_or_eq_of_mem_set hc
    · exact h.bounded c hc
    · exact ⟨hin, hout⟩

theorem Shape.reduced (h : Shape g bound bbs) (hb : bbs[i]? = some b) :
    Shape g bound (bbs.set i (b.reduced bbs)) := by
  have hmem := List.mem_of_getElem? hb
  obtain ⟨hacc, huse⟩ := h.accounts b hmem
  obtain ⟨hin, hout⟩ := h.bounded b hmem
  have hnew : (b.reduced bbs).liveOut ⊆ bound :=
    Finset.sdiff_subset.trans (Finset.union_subset hout (h.succIn_subset b.bb))
  exact h.set hb rfl hacc (huse.trans Finset.subset_union_left)
    (Finset.union_subset hin hnew) hnew

theorem Shape.visited (h : Shape g bound bbs) (hb : bbs[i]? = some b) :
    Shape g bound (bbs.set i (b.visited bbs i)) := by
  have hr := h.reduced hb
  have hi := (List.getElem?_eq_some_iff.1 hb).1
  have hmem := List.mem_set hi (b.reduced bbs)
  obtain ⟨hacc, huse⟩ := hr.accounts _ hmem
  obtain ⟨hin, hout⟩ := hr.bounded _ hmem
  exact h.set hb rfl hacc huse hin (Finset.union_subset hout (hr.succIn_subset b.bb))

/-- A visit that does not change `liveIn` of its block changes no `liveIn` at all. -/
theorem liveInAt_set_same {b' : LiveBlock} (hb : bbs[i]? = some b) (hsame : b'.liveIn = b.liveIn)
    (j : Nat) : liveInAt (bbs.set i b') j = liveInAt bbs j := by
  rw [liveInAt_set (List.getElem?_eq_some_iff.1 hb).1]
  split
  · next hj => rw [hj, hsame, liveInAt_get hb]
  · rfl

theorem succIn_set_same {b' : LiveBlock} (hb : bbs[i]? = some b) (hsame : b'.liveIn = b.liveIn)
    (bb : BasicBlock) : succIn (bbs.set i b') bb = succIn bbs bb := by
  rw [succIn, succIn, liveInAt_set_same hb hsame, liveInAt_set_same hb hsame]

theorem settled_visited (hb : bbs[i]? = some b) (hsame : (b.visited bbs i).liveIn = b.liveIn) :
    Settled (bbs.set i (b.visited bbs i)) (b.visited bbs i) := by
  have hred : (b.reduced bbs).liveIn = b.liveIn := hsame
  have hin : (b.liveOut ∪ succIn bbs b.bb) \ b.defs ⊆ b.liveIn := by
    rw [← hred]
    exact Finset.subset_union_right
  have hout : (b.visited bbs i).liveOut =
      (b.liveOut ∪ succIn bbs b.bb) \ b.defs ∪ succIn bbs b.bb :=
    congrArg ((b.reduced bbs).liveOut ∪ ·) (succIn_set_same hb hred b.bb)
  constructor
  · rw [succIn_set_same hb hsame, hout]
    exact Finset.subset_union_right
  · rw [hsame, hout]
    intro t ht
    apply hin
    simp only [Finset.mem_sdiff, Finset.mem_union] at ht ⊢
    obtain ⟨h | h, hd⟩ := ht
    · exact h
    · exact ⟨Or.inr h, hd⟩

end

/-- What the first `n` visits of a turn do. When they change nothing, their blocks are
settled. -/
theorem sweep_spec {g : List BasicBlock} {bound : Finset Temp} (hg : WellNumbered g)
    {bbs : List LiveBlock} (h : Shape g bound bbs) {n : Nat} (hn : n ≤ g.length) :
    ∃ bbs' changed, sweep n bbs = some (bbs', changed) ∧ Shape g bound bbs' ∧
      size bbs ≤ size bbs' ∧ (changed = true → size bbs < size bbs') ∧
      (changed = false → ∀ j b, j < n → bbs'[j]? = some b → Settled bbs' b) := by
  induction n with
  | zero => exact ⟨bbs, false, rfl, h, Nat.le_refl _, by simp, by simp⟩
  | succ n ih =>
    obtain ⟨bbs', changed, hs, h', hle, hgrow, hset⟩ := ih (by omega)
    obtain ⟨b, hb⟩ : ∃ b, bbs'[n]? = some b :=
      ⟨_, List.getElem?_eq_getElem (by rw [h'.length]; omega)⟩
    obtain ⟨h0, h1⟩ := hg.next b.bb (h'.mem (List.mem_of_getElem? hb))
    rw [← h'.length] at h0 h1
    have hsub := liveIn_subset_visited b bbs' n
    have hsize := size_set (b.visited bbs' n) hb
    have hcard := Finset.card_le_card hsub
    refine ⟨bbs'.set n (b.visited bbs' n), changed || decide ((b.visited bbs' n).liveIn ≠ b.liveIn),
      ?_, h'.visited hb, by omega, ?_, ?_⟩
    · simp [sweep, hs, visit_eq hb h0 h1]
    · intro hc
      rw [Bool.or_eq_true, decide_eq_true_eq] at hc
      obtain hc | hne := hc
      · have := hgrow hc
        omega
      · have := Finset.card_lt_card (Finset.ssubset_iff_subset_ne.2 ⟨hsub, Ne.symm hne⟩)
        omega
    · intro hc j c hj hcj
      rw [Bool.or_eq_false_iff, decide_eq_false_iff_not, not_not] at hc
      obtain ⟨hc, hsame⟩ := hc
      rw [List.getElem?_set] at hcj
      split at hcj
      · rw [if_pos (List.getElem?_eq_some_iff.1 hb).1] at hcj
        obtain rfl := Option.some_inj.1 hcj
        exact settled_visited hb hsame
      · obtain ⟨hin, hout⟩ := hset hc j c (by omega) hcj
        refine ⟨?_, hout⟩
        rwa [succIn_set_same hb hsame]

/-- A turn that changes nothing leaves every block settled. -/
theorem settled_of_sweep {g : List BasicBlock} {bound : Finset Temp} (hg : WellNumbered g)
    {bbs bbs' : List LiveBlock} (h : Shape g bound bbs)
    (hs : sweep g.length bbs = some (bbs', false)) :
    Shape g bound bbs' ∧ ∀ b ∈ bbs', Settled bbs' b := by
  obtain ⟨bbs'', changed, hs', h', -, -, hset⟩ := sweep_spec hg h (Nat.le_refl g.length)
  obtain ⟨rfl, rfl⟩ := Prod.mk.inj (Option.some_inj.1 (hs.symm.trans hs'))
  refine ⟨h', ?_⟩
  intro b hb
  obtain ⟨j, hj⟩ := List.mem_iff_getElem?.1 hb
  have hlt := (List.getElem?_eq_some_iff.1 hj).1
  rw [h'.length] at hlt
  exact hset rfl j b hlt hj

/-! ## What is live -/

def Spot.uses (t : Temp) : Spot → Prop
  | ⟨none, _⟩ => False
  | ⟨some (_, n :: _), _⟩ => t ∈ n.tac.uses
  | ⟨some (bb, []), _⟩ => bb.endKind ≠ .BY_BRANCH ∧ bb.var = some t

def Spot.defines (t : Temp) : Spot → Prop
  | ⟨some (_, n :: _), _⟩ => n.tac.defines = some t
  | _ => False

/-- A way that some run can go, whatever the tests find. -/
def goesOn (g : List BasicBlock) (s s' : Spot) : Prop := ∃ isZero, stepGraph g isZero s = some s'

/-- Some path from here reaches a use of the temp, with no definition of it on the way. The test
at the end of a block and the RETURN use the variable of the block. -/
def Live (g : List BasicBlock) (t : Temp) : Spot → Prop :=
  Until (goesOn g) (Spot.uses t) fun s => ¬ s.defines t

/-- The sets of the analysis hold what is live: in front of each block, where it goes on, and
behind each of its instructions. -/
structure Sound (g : List BasicBlock) (bbs : List LiveBlock) : Prop where
  blocks : bbs.map LiveBlock.bb = g
  liveIn : ∀ b ∈ bbs, ∀ t seen, Live g t ⟨some (b.bb, b.bb.tacList), seen⟩ → t ∈ b.liveIn
  liveOut : ∀ b ∈ bbs, ∀ t seen s, goesOn g ⟨some (b.bb, []), seen⟩ s → Live g t s →
    t ∈ b.liveOut
  tacLiveOuts : ∀ b ∈ bbs, ∀ before n rest, b.bb.tacList = before ++ n :: rest →
    ∃ out, b.tacLiveOuts[before.length]? = some out ∧
      ∀ t seen, Live g t ⟨some (b.bb, rest), seen⟩ → t ∈ out

theorem tacLiveOuts_cons (last : Finset Temp) (n : Node) (rest : List Node) :
    tacLiveOuts last (n :: rest) = through last rest :: tacLiveOuts last rest := by
  induction rest generalizing n with
  | nil => rfl
  | cons m rest ih =>
    rw [tacLiveOuts, ih m]
    rfl

theorem tacLiveOuts_get (last : Finset Temp) (before : List Node) (n : Node) (rest : List Node) :
    (tacLiveOuts last (before ++ n :: rest))[before.length]? = some (through last rest) := by
  induction before with
  | nil => simp [tacLiveOuts_cons]
  | cons m before ih => simpa [tacLiveOuts_cons] using ih

section

variable {g : List BasicBlock} {bound : Finset Temp} {bbs : List LiveBlock}

/-- What is live in front of a settled block is in its `liveIn`. -/
theorem Shape.mem_liveIn (h : Shape g bound bbs) (hset : ∀ b ∈ bbs, Settled bbs b) {b : LiveBlock}
    (hb : b ∈ bbs) {t : Temp} (ht : t ∈ through (addIf b.liveOut b.bb.var) b.bb.tacList) :
    t ∈ b.liveIn := by
  obtain ⟨hacc, huse⟩ := h.accounts b hb
  obtain hu | ⟨hout, hd⟩ := hacc _ t ht
  · exact huse hu
  · exact (hset b hb).2 (Finset.mem_sdiff.2 ⟨hout, hd⟩)

theorem goesOn_end {bb : BasicBlock} {seen : List Visit} {s : Spot}
    (h : goesOn g ⟨some (bb, []), seen⟩ s) : s.here = none ∨
      ∃ i c, (i = bb.next.1 ∨ i = bb.next.2) ∧ g[i]? = some c ∧ s.here = some (c, c.tacList) := by
  obtain ⟨isZero, h⟩ := h
  have henter : ∀ {i seen}, enter g i seen = some s →
      ∃ c, g[i]? = some c ∧ s.here = some (c, c.tacList) := by
    intro i seen h
    obtain ⟨c, hc, rfl⟩ := Option.map_eq_some_iff.1 h
    exact ⟨c, hc, rfl⟩
  cases hk : bb.endKind with
  | BY_RETURN =>
    simp only [stepGraph, hk] at h
    obtain rfl := Option.some_inj.1 h
    exact Or.inl rfl
  | BY_BRANCH =>
    simp only [stepGraph, hk] at h
    obtain ⟨c, hc, hs⟩ := henter h
    exact Or.inr ⟨_, c, Or.inl rfl, hc, hs⟩
  | BY_BEQZ =>
    simp only [stepGraph, hk] at h
    obtain ⟨c, hc, hs⟩ := henter h
    exact Or.inr ⟨_, c, ite_eq_or_eq _ _ _, hc, hs⟩
  | BY_BNEZ =>
    simp only [stepGraph, hk] at h
    obtain ⟨c, hc, hs⟩ := henter h
    exact Or.inr ⟨_, c, (ite_eq_or_eq _ _ _).symm, hc, hs⟩

/-- The temp is among what the sets of the analysis say is live here. -/
def Covers (bbs : List LiveBlock) (t : Temp) (s : Spot) : Prop :=
  ∀ b ∈ bbs, ∀ rest, s.here = some (b.bb, rest) → (∀ n ∈ rest, n.tac.isPlain = true) →
    t ∈ through (addIf b.liveOut b.bb.var) rest

theorem Shape.mem_liveOut (hg : WellNumbered g) (h : Shape g bound bbs)
    (hset : ∀ b ∈ bbs, Settled bbs b) {b : LiveBlock} (hb : b ∈ bbs) {seen : List Visit} {s : Spot}
    {t : Temp} (hs : goesOn g ⟨some (b.bb, []), seen⟩ s) (hne : s.here ≠ none)
    (hl : Covers bbs t s) : t ∈ b.liveOut := by
  obtain hnone | ⟨i, c, hi, hc, hhere⟩ := goesOn_end hs
  · exact absurd hnone hne
  · have hplain := hg.plain c (List.mem_of_getElem? hc)
    rw [← h.blocks, List.getElem?_map] at hc
    obtain ⟨d, hd, rfl⟩ := Option.map_eq_some_iff.1 hc
    have hmem := List.mem_of_getElem? hd
    have hin := h.mem_liveIn hset hmem (hl d hmem _ hhere hplain)
    rw [← liveInAt_get hd] at hin
    apply (hset b hb).1
    rw [succIn, Finset.mem_union]
    obtain rfl | rfl := hi
    · exact Or.inl hin
    · exact Or.inr hin

/-- Settled sets cover every path: the use at its end is covered, and what a step does not
define is covered in front of it. -/
theorem Shape.covers (hg : WellNumbered g) (h : Shape g bound bbs)
    (hset : ∀ b ∈ bbs, Settled bbs b) {t : Temp} {s : Spot} (hl : Live g t s) :
    s.here ≠ none ∧ Covers bbs t s := by
  refine Until.label (L := fun s => s.here ≠ none ∧ Covers bbs t s) ?_ ?_ hl
  · rintro ⟨_ | ⟨bb, _ | ⟨n, rest⟩⟩, seen⟩ hu
    · exact hu.elim
    · refine ⟨Option.some_ne_none _, ?_⟩
      intro b hb rest hhere hp
      obtain ⟨rfl, rfl⟩ := Prod.mk.inj (Option.some_inj.1 hhere)
      exact mem_addIf.2 (Or.inl hu.2)
    · refine ⟨Option.some_ne_none _, ?_⟩
      intro b hb rest' hhere hp
      obtain ⟨rfl, rfl⟩ := Prod.mk.inj (Option.some_inj.1 hhere)
      exact (mem_before (hp n List.mem_cons_self)).2 (Or.inl hu)
  · rintro ⟨_ | ⟨bb, _ | ⟨n, rest⟩⟩, seen⟩ s' hd hs ⟨hne, hcov⟩
    · obtain ⟨isZero, hs⟩ := hs
      cases hs
    · refine ⟨Option.some_ne_none _, ?_⟩
      intro b hb rest hhere hp
      obtain ⟨rfl, rfl⟩ := Prod.mk.inj (Option.some_inj.1 hhere)
      exact mem_addIf.2 (Or.inr (h.mem_liveOut hg hset hb hs hne hcov))
    · refine ⟨Option.some_ne_none _, ?_⟩
      intro b hb rest' hhere hp
      obtain ⟨rfl, rfl⟩ := Prod.mk.inj (Option.some_inj.1 hhere)
      obtain ⟨isZero, hs⟩ := hs
      obtain rfl := Option.some_inj.1 hs
      have hrest := hcov b hb rest rfl fun k hk => hp k (List.mem_cons_of_mem n hk)
      exact (mem_before (hp n List.mem_cons_self)).2 (Or.inr ⟨hrest, hd⟩)

theorem Shape.sound (hg : WellNumbered g) (h : Shape g bound bbs)
    (hset : ∀ b ∈ bbs, Settled bbs b) : Sound g bbs := by
  constructor
  · exact h.blocks
  · intro b hb t seen hl
    have hplain := hg.plain b.bb (h.mem hb)
    exact h.mem_liveIn hset hb ((h.covers hg hset hl).2 b hb _ rfl hplain)
  · intro b hb t seen s hs hl
    obtain ⟨hne, hcov⟩ := h.covers hg hset hl
    exact h.mem_liveOut hg hset hb hs hne hcov
  · intro b hb before n rest htacs
    refine ⟨through (addIf b.liveOut b.bb.var) rest, ?_, ?_⟩
    · rw [LiveBlock.tacLiveOuts, htacs, tacLiveOuts_get]
    · intro t seen hl
      apply (h.covers hg hset hl).2 b hb rest rfl
      intro k hk
      apply hg.plain b.bb (h.mem hb)
      rw [htacs]
      exact List.mem_append_right before (List.mem_cons_of_mem n hk)

end

/-- What the first loop leaves has the shape that the second one keeps. -/
theorem shape_computeAll {g : List BasicBlock} (hg : WellNumbered g) :
    ∃ bound, Shape g bound (computeAll (fun _ => -1) g) := by
  have hacc := computeAll_accounts (fun _ => -1) (g := g) (k := 0)
    (fun i bb hbb => by rw [hg.num hbb, Nat.zero_add]) hg.plain fun _ => by decide
  refine ⟨(computeAll (fun _ => -1) g).toFinset.biUnion LiveBlock.liveIn, ?_, ?_, ?_⟩
  · exact computeAll_blocks _ g
  · intro b hb
    exact ⟨hacc b hb, (computeAll_sets _ g b hb).1.symm.subset⟩
  · intro b hb
    rw [(computeAll_sets _ g b hb).2]
    exact ⟨Finset.subset_biUnion_of_mem LiveBlock.liveIn (List.mem_toFinset.2 hb),
      Finset.empty_subset _⟩

/-- The loop over the blocks stops, and then the sets are settled. -/
theorem analyzeLiveness_settles {g : List BasicBlock} (hg : WellNumbered g) :
    ∃ bbs turns bound, (∀ turns' > turns, analyzeLiveness turns' g = some bbs) ∧
      Shape g bound bbs ∧ ∀ b ∈ bbs, Settled bbs b := by
  obtain ⟨bound, h0⟩ := shape_computeAll hg
  have hturn : ∀ bbs, Shape g bound bbs → ∃ bbs' changed,
      sweep g.length bbs = some (bbs', changed) ∧ Shape g bound bbs' ∧
        (changed = true → size bbs < size bbs') := by
    intro bbs hbbs
    obtain ⟨bbs', changed, hs, h', -, hgrow, -⟩ := sweep_spec hg hbbs (Nat.le_refl g.length)
    exact ⟨bbs', changed, hs, h', hgrow⟩
  obtain ⟨last, bbs, hlast, hsweep, hrun⟩ :=
    loopWhile_stops hturn (fun bbs hbbs => hbbs.size_le) h0
  obtain ⟨hshape, hset⟩ := settled_of_sweep hg hlast hsweep
  refine ⟨bbs, g.length * bound.card, bound, ?_, hshape, hset⟩
  intro turns' hlt
  exact hrun turns' (by omega)

/-- The loop over the blocks of a function's graph stops, and then every temp that some path
still uses is in the sets. -/
theorem liveness_sound (f : Functy) {fuel : Nat} {g : List BasicBlock}
    (h : flowGraph fuel f = some g) :
    ∃ bbs turns, (∀ turns' > turns, analyzeLiveness turns' g = some bbs) ∧ Sound g bbs := by
  have hg := wellNumbered_of_flowGraph h
  obtain ⟨bbs, turns, _, hrun, hshape, hset⟩ := analyzeLiveness_settles hg
  exact ⟨bbs, turns, hrun, hshape.sound hg hset⟩

/-- `int f(int n) { while (n > 0) { n = n - 1; } return n; }`, as `visitWhileLoop` translates it. -/
def countDown : Functy where
  label := ⟨0⟩
  head := [.mark ⟨0⟩, .mark ⟨1⟩, .loadImm4 ⟨2⟩ 0, .binary .gtr ⟨3⟩ ⟨1⟩ ⟨2⟩, .beqz ⟨3⟩ ⟨2⟩,
    .loadImm4 ⟨4⟩ 1, .binary .sub ⟨5⟩ ⟨1⟩ ⟨4⟩, .unary .assign ⟨1⟩ ⟨5⟩, .branch ⟨1⟩,
    .mark ⟨2⟩, .ret (some ⟨1⟩)]
  opens := rfl
  markedOnce := by decide
  jumpsMarked := by decide
  testsFollowed := by decide

theorem liveness_sound_countDown : ∃ g bbs turns, flowGraph 9 countDown = some g ∧
    (∀ turns' > turns, analyzeLiveness turns' g = some bbs) ∧ Sound g bbs := by
  have hsome : (flowGraph 9 countDown).isSome = true := by
    rw [flowGraph_eq]
    decide
  obtain ⟨g, hg⟩ := Option.isSome_iff_exists.1 hsome
  obtain ⟨bbs, turns, h⟩ := liveness_sound countDown hg
  exact ⟨g, bbs, turns, hg, h⟩

end nehcpu.decaf
