-- What `simplify` leaves of the blocks, said of the pieces: which of them are kept, where
-- their edges lead, and when the loops that follow the edges come to an end.
import Nehcpu.Decaf.Gather

namespace nehcpu.decaf

/-! ## Pieces that are kept -/

/-- The label that a piece goes on to when it is nothing but a BRANCH. -/
def Piece.onward (p : Piece) : Option Label :=
  match p.body, p.ender with
  | [], some n => match n.tac with
    | .branch l => some l
    | _ => none
  | _, _ => none

/-- Where a run may go from the end of a piece. -/
def Piece.ways (num : Label → Nat) (k : Nat) (more : Bool) (p : Piece) : List Nat :=
  match p.ender with
  | none => if more then [k + 1] else []
  | some n => match n.tac with
    | .branch l => [num l]
    | .beqz _ l | .bnez _ l => [k + 1, num l]
    | _ => []

namespace Functy

variable (f : Functy)

/-- A piece follows the piece `k`. -/
def more (k : Nat) : Bool := k + 1 < f.pieces.length

def ways (k : Nat) : List Nat :=
  match f.pieces[k]? with
  | none => []
  | some p => p.ways f.num k (f.more k)

/-- Something leads to the piece: it is the first one or some piece may go on to it. -/
def Reached (k : Nat) : Prop := k = 0 ∨ ∃ i, k ∈ f.ways i

/-- Something leads to the piece, and it is more than a BRANCH. -/
def Kept (k : Nat) : Prop := f.Reached k ∧ ∃ p, f.pieces[k]? = some p ∧ p.onward = none

/-- The piece `q` is where `c` pieces that are nothing but a BRANCH lead from the piece `k`. -/
inductive LeadsIn : Nat → Nat → Nat → Prop
  | here {k : Nat} {p : Piece} (hp : f.pieces[k]? = some p) (ho : p.onward = none) :
      LeadsIn 0 k k
  | hop {c k q : Nat} {p : Piece} {l : Label} (hp : f.pieces[k]? = some p)
      (ho : p.onward = some l) (h : LeadsIn c (f.num l) q) : LeadsIn (c + 1) k q

def LeadsTo (k q : Nat) : Prop := ∃ c, f.LeadsIn c k q

/-- No way out of a piece that is kept runs into a ring of BRANCHes. -/
def NoRing : Prop := ∀ k, f.Kept k → ∀ j ∈ f.ways k, ∃ q, f.LeadsTo j q

/-- The BRANCHes at the beginning lead to the first of all pieces that are kept. -/
def EntersFirst : Prop := ∃ q, f.LeadsTo 0 q ∧ ∀ k < q, ¬ f.Kept k

end Functy

theorem Functy.LeadsIn.unique {f : Functy} {c c' k q q' : Nat} (h : f.LeadsIn c k q)
    (h' : f.LeadsIn c' k q') : q = q' ∧ c = c' := by
  induction h generalizing c' with
  | here hp ho =>
    cases h' with
    | here => exact ⟨rfl, rfl⟩
    | hop hp' ho' =>
      obtain rfl := Option.some_inj.1 (hp.symm.trans hp')
      rw [ho] at ho'
      cases ho'
  | hop hp ho h ih =>
    cases h' with
    | here hp' ho' =>
      obtain rfl := Option.some_inj.1 (hp.symm.trans hp')
      rw [ho] at ho'
      cases ho'
    | hop hp' ho' h' =>
      obtain rfl := Option.some_inj.1 (hp.symm.trans hp')
      obtain rfl := Option.some_inj.1 (ho.symm.trans ho')
      obtain ⟨rfl, rfl⟩ := ih h'
      exact ⟨rfl, rfl⟩

/-- The label of a piece that is nothing but a BRANCH is one of its ways. -/
theorem Functy.onward_mem_ways {f : Functy} {k : Nat} {p : Piece} {l : Label}
    (hp : f.pieces[k]? = some p) (ho : p.onward = some l) : f.ways k = [f.num l] := by
  unfold Piece.onward at ho
  split at ho
  · next hb he =>
    split at ho
    · next ht =>
      obtain rfl := Option.some_inj.1 ho
      simp [Functy.ways, hp, Piece.ways, he, ht]
    · cases ho
  · cases ho

/-- What a piece is led to is kept, when the piece is reached. -/
theorem Functy.LeadsIn.kept {f : Functy} {c k q : Nat} (h : f.LeadsIn c k q)
    (hr : f.Reached k) : f.Kept q := by
  induction h with
  | here hp ho => exact ⟨hr, _, hp, ho⟩
  | hop hp ho h ih =>
    apply ih
    exact Or.inr ⟨_, by rw [onward_mem_ways hp ho]; exact List.mem_singleton_self _⟩

/-! ## The blocks in front of the loops -/

theorem blocksFrom_length (num : Label → Nat) (k : Nat) (ps : List Piece) :
    (blocksFrom num k ps).length = ps.length := by
  induction ps generalizing k with
  | nil => rfl
  | cons p ps ih => simp [blocksFrom, ih]

theorem blocksFrom_get (num : Label → Nat) (k i : Nat) (ps : List Piece) :
    (blocksFrom num k ps)[i]? =
      ps[i]?.map (toBlock num (k + i) (i + 1 < ps.length)) := by
  induction ps generalizing k i with
  | nil => simp [blocksFrom]
  | cons p ps ih =>
    cases i with
    | zero => cases ps <;> simp [blocksFrom]
    | succ i =>
      rw [blocksFrom, List.getElem?_cons_succ, List.getElem?_cons_succ, ih, List.length_cons,
        Nat.add_right_comm, Nat.add_assoc]
      simp only [Nat.add_lt_add_iff_right]

/-- The blocks as `gatherBasicBlocks` leaves them. -/
def Functy.blocks (f : Functy) : List BasicBlock := blocksFrom f.num 0 f.pieces

theorem Functy.blocks_get (f : Functy) (k : Nat) :
    f.blocks[k]? = f.pieces[k]?.map (toBlock f.num k (f.more k)) := by
  rw [Functy.blocks, blocksFrom_get, Nat.zero_add]
  rfl

theorem PiecesOk.get {ps : List Piece} (h : PiecesOk ps) {k : Nat} {p : Piece}
    (hp : ps[k]? = some p) :
    (∀ n ∈ p.body, n.tac.isPlain = true) ∧ (∀ n, p.ender = some n → n.tac.isJump = true) ∧
      (p.ender = none → k + 1 < ps.length → p.body ≠ [] ∧ Labelled (ps.drop (k + 1))) := by
  induction ps generalizing k with
  | nil => simp at hp
  | cons q qs ih =>
    obtain ⟨hbody, hjump, hopen, hrest⟩ := h
    cases k with
    | zero =>
      obtain rfl := Option.some_inj.1 hp
      refine ⟨hbody, hjump, fun he hlt => hopen he ?_⟩
      rintro rfl
      simp at hlt
    | succ k =>
      obtain ⟨h1, h2, h3⟩ := ih hrest hp
      exact ⟨h1, h2, fun he hlt => h3 he (by simpa using hlt)⟩

theorem Linked.get {known : Label → Prop} {ps : List Piece} (h : Linked known ps) {k : Nat}
    {p : Piece} (hp : ps[k]? = some p) {n : Node} (hn : p.ender = some n) :
    (∀ l, n.tac.target? = some l → known l) ∧ (n.tac.isTest = true → k + 1 < ps.length) := by
  induction ps generalizing k with
  | nil => simp at hp
  | cons q qs ih =>
    cases k with
    | zero =>
      obtain rfl := Option.some_inj.1 hp
      refine ⟨(h.1 n hn).1, fun ht => ?_⟩
      have := List.length_pos_iff.2 ((h.1 n hn).2 ht)
      simpa using this
    | succ k =>
      obtain ⟨h1, h2⟩ := ih h.2 hp
      exact ⟨h1, fun ht => by simpa using h2 ht⟩

theorem mem_edges_toBlock {num : Label → Nat} {k : Nat} {more : Bool} {p : Piece}
    (hjump : ∀ n, p.ender = some n → n.tac.isJump = true) {j : Nat} :
    j ∈ (toBlock num k more p).edges ↔ j ∈ p.ways num k more := by
  cases he : p.ender with
  | none => cases more <;> simp [toBlock, he, Piece.ways, BasicBlock.edges]
  | some n =>
    obtain ⟨_, ht⟩ | ⟨l, ht⟩ | ⟨_, l, ht⟩ | ⟨_, l, ht⟩ := Tac.jump_kinds (hjump n he) <;>
      simp [toBlock, he, ht, Piece.ways, BasicBlock.edges]

theorem toBlock_goesOn {num : Label → Nat} {k : Nat} {more : Bool} {p : Piece}
    (hjump : ∀ n, p.ender = some n → n.tac.isJump = true)
    (hopen : p.ender = none → more = true → p.body ≠ []) :
    ((toBlock num k more p).endKind = .BY_BRANCH ∧ (toBlock num k more p).tacList = []) ↔
      p.onward ≠ none := by
  cases he : p.ender with
  | none =>
    cases more with
    | false => cases hb : p.body <;> simp [toBlock, he, Piece.onward, hb, newBlock]
    | true =>
      have hb := hopen he rfl
      simp [toBlock, he, Piece.onward, hb, newBlock]
  | some n =>
    obtain ⟨_, ht⟩ | ⟨l, ht⟩ | ⟨_, l, ht⟩ | ⟨_, l, ht⟩ := Tac.jump_kinds (hjump n he) <;>
      cases hb : p.body <;> simp [toBlock, he, ht, Piece.onward, hb, newBlock]

/-- What the first two loops of `simplify` write into a block. -/
def BasicBlock.flagged (bb : BasicBlock) (inDegree : Nat) (cancelled : Bool) : BasicBlock :=
  { bb with inDegree := inDegree, cancelled := cancelled }

theorem cancel_get {bbs : List BasicBlock} {k d : Nat} {bb : BasicBlock} (h : bbs[k]? = some bb)
    (hc : bb.cancelled = false)
    (hd : (if k = 0 then 1 else 0) + (bbs.flatMap BasicBlock.edges).count k = d) :
    ((countInDegrees bbs).map BasicBlock.cancel)[k]? =
      some (bb.flagged d (decide (d ≤ 0 ∨ (bb.endKind = .BY_BRANCH ∧ bb.tacList = [])))) := by
  rw [List.getElem?_map, countInDegrees, List.getElem?_mapIdx, h]
  simp only [Option.map_some, hd, BasicBlock.cancel, BasicBlock.flagged]
  split
  · next hcond => rw [decide_eq_true hcond]
  · next hcond => rw [decide_eq_false hcond, ← hc]

theorem toBlock_cancelled (num : Label → Nat) (k : Nat) (more : Bool) (p : Piece) :
    (toBlock num k more p).cancelled = false := by
  unfold toBlock newBlock
  split <;> split <;> rfl

/-- The blocks when they have been counted and cancelled. -/
def Functy.counted (f : Functy) : List BasicBlock :=
  (countInDegrees f.blocks).map BasicBlock.cancel

theorem Functy.mem_edges (f : Functy) {j : Nat} :
    j ∈ f.blocks.flatMap BasicBlock.edges ↔ ∃ i, j ∈ f.ways i := by
  rw [List.mem_flatMap]
  constructor
  · rintro ⟨bb, hbb, hj⟩
    obtain ⟨i, hi⟩ := List.mem_iff_getElem?.1 hbb
    rw [f.blocks_get, Option.map_eq_some_iff] at hi
    obtain ⟨p, hp, rfl⟩ := hi
    refine ⟨i, ?_⟩
    rw [Functy.ways, hp]
    exact (mem_edges_toBlock (f.pieces_ok.get hp).2.1).1 hj
  · rintro ⟨i, hj⟩
    unfold Functy.ways at hj
    split at hj
    · cases hj
    · next p hp =>
      refine ⟨_, List.mem_of_getElem? (by rw [f.blocks_get, hp]; rfl), ?_⟩
      exact (mem_edges_toBlock (f.pieces_ok.get hp).2.1).2 hj

/-- A block is cancelled exactly when its piece is not kept, and nothing else that a run
reads is changed. -/
theorem Functy.counted_get (f : Functy) {k : Nat} {p : Piece} (hp : f.pieces[k]? = some p) :
    ∃ d c, f.counted[k]? = some ((toBlock f.num k (f.more k) p).flagged d c) ∧
      (c = true ↔ ¬ f.Kept k) := by
  obtain ⟨-, hjump, hopen⟩ := f.pieces_ok.get hp
  have hgoes := @toBlock_goesOn f.num k (f.more k) p hjump
    (fun he hm => (hopen he (by simpa [Functy.more] using hm)).1)
  have hdeg : ((if k = 0 then 1 else 0) + (f.blocks.flatMap BasicBlock.edges).count k ≤ 0) ↔
      ¬ f.Reached k := by
    rw [Functy.Reached, ← f.mem_edges, ← List.count_pos_iff]
    split <;> omega
  have hkept : f.Kept k ↔ f.Reached k ∧ p.onward = none := by
    constructor
    · rintro ⟨hr, q, hq, ho⟩
      obtain rfl := Option.some_inj.1 (hp.symm.trans hq)
      exact ⟨hr, ho⟩
    · rintro ⟨hr, ho⟩
      exact ⟨hr, p, hp, ho⟩
  have hget : f.blocks[k]? = some (toBlock f.num k (f.more k) p) := by rw [f.blocks_get, hp]; rfl
  refine ⟨_, _, cancel_get hget (toBlock_cancelled _ _ _ _) rfl, ?_⟩
  rw [decide_eq_true_iff, hkept, not_and_or]
  exact or_congr hdeg hgoes

theorem Functy.counted_length (f : Functy) : f.counted.length = f.pieces.length := by
  simp [Functy.counted, countInDegrees, Functy.blocks, blocksFrom_length]

theorem Functy.piece_of_counted (f : Functy) {k : Nat} {bb : BasicBlock}
    (h : f.counted[k]? = some bb) : ∃ p, f.pieces[k]? = some p := by
  have hlt := (List.getElem?_eq_some_iff.1 h).1
  rw [f.counted_length] at hlt
  exact ⟨_, List.getElem?_eq_getElem hlt⟩

theorem toBlock_bbNum (num : Label → Nat) (k : Nat) (more : Bool) (p : Piece) :
    (toBlock num k more p).bbNum = k := by
  unfold toBlock newBlock
  split <;> split <;> rfl

theorem toBlock_tacList (num : Label → Nat) (k : Nat) (more : Bool) (p : Piece) :
    (toBlock num k more p).tacList = numbered k p.body := by
  unfold toBlock newBlock
  split <;> split <;> rfl

theorem toBlock_onward {num : Label → Nat} {k : Nat} {more : Bool} {p : Piece} {l : Label}
    (ho : p.onward = some l) : (toBlock num k more p).next.1 = num l := by
  unfold Piece.onward at ho
  split at ho
  · next hb he =>
    split at ho
    · next ht =>
      obtain rfl := Option.some_inj.1 ho
      simp [toBlock, he, ht]
    · cases ho
  · cases ho

theorem Functy.Kept.iff {f : Functy} {k : Nat} (hr : f.Reached k) {p : Piece}
    (hp : f.pieces[k]? = some p) : f.Kept k ↔ p.onward = none := by
  constructor
  · rintro ⟨-, q, hq, ho⟩
    obtain rfl := Option.some_inj.1 (hp.symm.trans hq)
    exact ho
  · intro ho
    exact ⟨hr, p, hp, ho⟩

/-! ## Following the edges -/

/-- With enough fuel the loop finds the block that is led to. -/
theorem trace_of_leads {f : Functy} {c k q : Nat} (h : f.LeadsIn c k q) (hr : f.Reached k)
    {fuel : Nat} (hf : c < fuel) : trace f.counted fuel k = f.counted[q]? := by
  induction h generalizing fuel with
  | @here k p hp ho =>
    obtain ⟨d, b, hget, hb⟩ := f.counted_get hp
    have hkept := (Functy.Kept.iff hr hp).2 ho
    obtain ⟨fuel, rfl⟩ := Nat.exists_eq_add_of_lt hf
    cases b with
    | true => exact absurd hkept (hb.1 rfl)
    | false => simp [trace, hget, BasicBlock.flagged]
  | @hop c k q p l hp ho h ih =>
    obtain ⟨d, b, hget, hb⟩ := f.counted_get hp
    have hkept : ¬ f.Kept k := fun hk => by
      rw [Functy.Kept.iff hr hp, ho] at hk
      cases hk
    have hl : f.Reached (f.num l) :=
      Or.inr ⟨k, by rw [Functy.onward_mem_ways hp ho]; exact List.mem_singleton_self _⟩
    cases fuel with
    | zero => omega
    | succ fuel =>
      rw [trace, hget, hb.2 hkept]
      simp only [Option.bind_eq_bind, Option.bind_some, BasicBlock.flagged, if_true,
        toBlock_onward ho]
      exact ih hl (by omega)

/-- What the loop finds is a block that is kept. -/
theorem leads_of_trace {f : Functy} {fuel k : Nat} {bb : BasicBlock} (hr : f.Reached k)
    (h : trace f.counted fuel k = some bb) :
    ∃ q, f.LeadsTo k q ∧ f.Kept q ∧ bb.bbNum = q := by
  induction fuel generalizing k with
  | zero => cases h
  | succ fuel ih =>
    rw [trace, Option.bind_eq_bind, Option.bind_eq_some_iff] at h
    obtain ⟨b, hget, h⟩ := h
    obtain ⟨p, hp⟩ := f.piece_of_counted hget
    obtain ⟨d, c, hget', hc⟩ := f.counted_get hp
    obtain rfl := Option.some_inj.1 (hget.symm.trans hget')
    cases ho : p.onward with
    | none =>
      have hkept := (Functy.Kept.iff hr hp).2 ho
      cases c with
      | true => exact absurd hkept (hc.1 rfl)
      | false =>
        obtain rfl := Option.some_inj.1 h
        exact ⟨k, ⟨0, .here hp ho⟩, hkept, toBlock_bbNum _ _ _ _⟩
    | some l =>
      have hkept : ¬ f.Kept k := fun hk => by
        rw [Functy.Kept.iff hr hp, ho] at hk
        cases hk
      rw [hc.2 hkept] at h
      simp only [BasicBlock.flagged, if_true, toBlock_onward ho] at h
      have hl : f.Reached (f.num l) :=
        Or.inr ⟨k, by rw [Functy.onward_mem_ways hp ho]; exact List.mem_singleton_self _⟩
      obtain ⟨q, ⟨c, hq⟩, hkq, hbb⟩ := ih hl h
      exact ⟨q, ⟨c + 1, .hop hp ho hq⟩, hkq, hbb⟩

/-- The number of the block that the edge to `j` leads to in the end. `place` says where the
blocks that are kept stand. -/
def Functy.Goes (f : Functy) (place : Nat → Nat) (j i : Nat) : Prop :=
  ∃ q, f.LeadsTo j q ∧ f.Kept q ∧ i = place q

/-- How a block ends that was made of the piece `k`, with the jump `ender` behind it. -/
inductive Functy.Ends (f : Functy) (place : Nat → Nat) (k : Nat) : Option Node → BasicBlock → Prop
  | off {bb : BasicBlock} (hm : f.more k = false) (hk : bb.endKind = .BY_RETURN)
      (he : bb.ender = none) : Ends f place k none bb
  | on {bb : BasicBlock} (hm : f.more k = true) (hk : bb.endKind = .BY_BRANCH)
      (he : bb.ender = none) (hn : bb.next.2 = bb.next.1) (hg : f.Goes place (k + 1) bb.next.1) :
      Ends f place k none bb
  | ret {bb : BasicBlock} {n : Node} {op0 : Option Temp} (ht : n.tac = .ret op0)
      (hk : bb.endKind = .BY_RETURN) (he : bb.ender = some n.pos) : Ends f place k (some n) bb
  | branch {bb : BasicBlock} {n : Node} {l : Label} (ht : n.tac = .branch l)
      (hk : bb.endKind = .BY_BRANCH) (he : bb.ender = none) (hn : bb.next.2 = bb.next.1)
      (hg : f.Goes place (f.num l) bb.next.1) : Ends f place k (some n) bb
  | beqz {bb : BasicBlock} {n : Node} {op0 : Temp} {l : Label} (ht : n.tac = .beqz op0 l)
      (hk : bb.endKind = .BY_BEQZ ∨ (bb.endKind = .BY_BRANCH ∧ bb.next.2 = bb.next.1))
      (he : bb.ender = some n.pos) (hg : f.Goes place (f.num l) bb.next.1)
      (hg' : f.Goes place (k + 1) bb.next.2) : Ends f place k (some n) bb
  | bnez {bb : BasicBlock} {n : Node} {op0 : Temp} {l : Label} (ht : n.tac = .bnez op0 l)
      (hk : bb.endKind = .BY_BNEZ ∨ (bb.endKind = .BY_BRANCH ∧ bb.next.2 = bb.next.1))
      (he : bb.ender = some n.pos) (hg : f.Goes place (f.num l) bb.next.1)
      (hg' : f.Goes place (k + 1) bb.next.2) : Ends f place k (some n) bb

theorem Functy.goes_of_trace {f : Functy} {fuel k j : Nat} {bb : BasicBlock} (hj : j ∈ f.ways k)
    (h : trace f.counted fuel j = some bb) : f.Goes id j bb.bbNum := by
  obtain ⟨q, hq, hkept, hbb⟩ := leads_of_trace (Or.inr ⟨k, hj⟩) h
  exact ⟨q, hq, hkept, hbb⟩

theorem redirect_cancelled {bbs : List BasicBlock} {fuel : Nat} {bb : BasicBlock}
    (h : bb.cancelled = true) : redirect bbs fuel bb = some bb := by
  rw [redirect, if_pos (Or.inl h)]

/-- What `redirect` makes of a block that is kept. -/
theorem redirect_ends {f : Functy} {fuel k d : Nat} {p : Piece} {b : BasicBlock}
    (hp : f.pieces[k]? = some p)
    (h : redirect f.counted fuel ((toBlock f.num k (f.more k) p).flagged d false) = some b) :
    b.bbNum = k ∧ b.cancelled = false ∧ b.tacList = numbered k p.body ∧
      f.Ends id k p.ender b := by
  obtain ⟨-, hjump, -⟩ := f.pieces_ok.get hp
  have hways : f.ways k = p.ways f.num k (f.more k) := by rw [Functy.ways, hp]
  cases he : p.ender with
  | none =>
    cases hm : f.more k with
    | false =>
      simp only [redirect, toBlock, he, hm, BasicBlock.flagged, newBlock] at h
      obtain rfl := Option.some_inj.1 h
      exact ⟨rfl, rfl, rfl, .off hm rfl rfl⟩
    | true =>
      have hj : k + 1 ∈ f.ways k := by simp [hways, Piece.ways, he, hm]
      simp [redirect, toBlock, he, hm, BasicBlock.flagged, newBlock, Option.bind_eq_some_iff] at h
      obtain ⟨b0, h0, rfl⟩ := h
      exact ⟨rfl, rfl, rfl, .on hm rfl rfl rfl (Functy.goes_of_trace hj h0)⟩
  | some n =>
    obtain ⟨_, ht⟩ | ⟨l, ht⟩ | ⟨_, l, ht⟩ | ⟨_, l, ht⟩ := Tac.jump_kinds (hjump n he)
    · simp [redirect, toBlock, he, ht, BasicBlock.flagged, newBlock] at h
      subst h
      exact ⟨rfl, rfl, rfl, .ret ht rfl rfl⟩
    · have hj : f.num l ∈ f.ways k := by simp [hways, Piece.ways, he, ht]
      simp [redirect, toBlock, he, ht, BasicBlock.flagged, newBlock, Option.bind_eq_some_iff] at h
      obtain ⟨b0, h0, rfl⟩ := h
      exact ⟨rfl, rfl, rfl, .branch ht rfl rfl rfl (Functy.goes_of_trace hj h0)⟩
    · have hj : f.num l ∈ f.ways k := by simp [hways, Piece.ways, he, ht]
      have hj' : k + 1 ∈ f.ways k := by simp [hways, Piece.ways, he, ht]
      simp [redirect, toBlock, he, ht, BasicBlock.flagged, newBlock, Option.bind_eq_some_iff] at h
      obtain ⟨b0, h0, b1, h1, rfl⟩ := h
      refine ⟨rfl, rfl, rfl, .beqz ht ?_ rfl (Functy.goes_of_trace hj h0)
        (Functy.goes_of_trace hj' h1)⟩
      by_cases heq : b0.bbNum = b1.bbNum <;> simp [heq]
    · have hj : f.num l ∈ f.ways k := by simp [hways, Piece.ways, he, ht]
      have hj' : k + 1 ∈ f.ways k := by simp [hways, Piece.ways, he, ht]
      simp [redirect, toBlock, he, ht, BasicBlock.flagged, newBlock, Option.bind_eq_some_iff] at h
      obtain ⟨b0, h0, b1, h1, rfl⟩ := h
      refine ⟨rfl, rfl, rfl, .bnez ht ?_ rfl (Functy.goes_of_trace hj h0)
        (Functy.goes_of_trace hj' h1)⟩
      by_cases heq : b0.bbNum = b1.bbNum <;> simp [heq]

/-- With enough fuel `redirect` comes to an end. -/
theorem redirect_total {f : Functy} {fuel k d : Nat} {p : Piece} (hp : f.pieces[k]? = some p)
    (hfuel : ∀ j ∈ f.ways k, ∃ bb, trace f.counted fuel j = some bb) :
    ∃ b, redirect f.counted fuel ((toBlock f.num k (f.more k) p).flagged d false) = some b := by
  obtain ⟨-, hjump, -⟩ := f.pieces_ok.get hp
  have hways : f.ways k = p.ways f.num k (f.more k) := by rw [Functy.ways, hp]
  rw [hways] at hfuel
  cases he : p.ender with
  | none =>
    cases hm : f.more k with
    | false => simp [redirect, toBlock, he, BasicBlock.flagged, newBlock]
    | true =>
      obtain ⟨b0, h0⟩ := hfuel (k + 1) (by simp [Piece.ways, he, hm])
      simp [redirect, toBlock, he, BasicBlock.flagged, newBlock, h0]
  | some n =>
    obtain ⟨_, ht⟩ | ⟨l, ht⟩ | ⟨_, l, ht⟩ | ⟨_, l, ht⟩ := Tac.jump_kinds (hjump n he)
    · simp [redirect, toBlock, he, ht, BasicBlock.flagged, newBlock]
    · obtain ⟨b0, h0⟩ := hfuel (f.num l) (by simp [Piece.ways, he, ht])
      simp [redirect, toBlock, he, ht, BasicBlock.flagged, newBlock, h0]
    · obtain ⟨b0, h0⟩ := hfuel (f.num l) (by simp [Piece.ways, he, ht])
      obtain ⟨b1, h1⟩ := hfuel (k + 1) (by simp [Piece.ways, he, ht])
      simp [redirect, toBlock, he, ht, BasicBlock.flagged, newBlock, h0, h1]
    · obtain ⟨b0, h0⟩ := hfuel (f.num l) (by simp [Piece.ways, he, ht])
      obtain ⟨b1, h1⟩ := hfuel (k + 1) (by simp [Piece.ways, he, ht])
      simp [redirect, toBlock, he, ht, BasicBlock.flagged, newBlock, h0, h1]

/-! ## Closing the gaps -/

section

variable {α β : Type}

theorem mapM_get {h : α → Option β} {l : List α} {l' : List β} (hm : l.mapM h = some l') {i : Nat}
    {a : α} (ha : l[i]? = some a) : ∃ b, l'[i]? = some b ∧ h a = some b := by
  induction l generalizing l' i with
  | nil => simp at ha
  | cons x xs ih =>
    simp only [List.mapM_cons, Option.bind_eq_bind, Option.bind_eq_some_iff] at hm
    obtain ⟨y, hy, ys, hys, hl⟩ := hm
    obtain rfl := Option.some_inj.1 hl
    cases i with
    | zero =>
      obtain rfl := Option.some_inj.1 ha
      exact ⟨y, rfl, hy⟩
    | succ i => exact ih hys ha

theorem mapM_length {h : α → Option β} {l : List α} {l' : List β} (hm : l.mapM h = some l') :
    l'.length = l.length := by
  induction l generalizing l' with
  | nil =>
    obtain rfl := Option.some_inj.1 hm
    rfl
  | cons x xs ih =>
    simp only [List.mapM_cons, Option.bind_eq_bind, Option.bind_eq_some_iff] at hm
    obtain ⟨y, -, ys, hys, hl⟩ := hm
    obtain rfl := Option.some_inj.1 hl
    simp [ih hys]

theorem mapM_total {h : α → Option β} {l : List α} (hl : ∀ a ∈ l, ∃ b, h a = some b) :
    ∃ l', l.mapM h = some l' := by
  induction l with
  | nil => exact ⟨[], rfl⟩
  | cons x xs ih =>
    obtain ⟨y, hy⟩ := hl x List.mem_cons_self
    obtain ⟨ys, hys⟩ := ih fun a ha => hl a (List.mem_cons_of_mem _ ha)
    exact ⟨y :: ys, by simp [List.mapM_cons, hy, hys]⟩

theorem filter_get {keep : α → Bool} {l : List α} {i : Nat} {a : α} (ha : l[i]? = some a)
    (hk : keep a = true) : (l.filter keep)[(l.take i).countP keep]? = some a := by
  induction l generalizing i with
  | nil => simp at ha
  | cons x xs ih =>
    cases i with
    | zero =>
      obtain rfl := Option.some_inj.1 ha
      simp [hk]
    | succ i =>
      have ih := ih ha
      by_cases hx : keep x = true <;> simp [hx, ih]

end

/-- What the finished graph is, said of the pieces. -/
structure Functy.Graph (f : Functy) (place : Nat → Nat) (g : List BasicBlock) : Prop where
  block : ∀ {k p}, f.pieces[k]? = some p → f.Kept k →
    ∃ bb, g[place k]? = some bb ∧ bb.tacList = numbered k p.body ∧ f.Ends place k p.ender bb
  first : ∀ {k}, f.Kept k → (∀ i < k, ¬ f.Kept i) → place k = 0
  keeps : g ≠ [] → ∃ k, f.Kept k

/-- The edges of a block get their new numbers. -/
theorem renumber_ends {f : Functy} {bbs : List BasicBlock} {place : Nat → Nat} {k : Nat}
    {e : Option Node} {b : BasicBlock} (hkept : f.Kept k) (hb : b.bbNum = k)
    (hplace : ∀ q, f.Kept q → newBBNum bbs q = some (place q)) (h : f.Ends id k e b) :
    ∃ bb, renumber bbs b = some bb ∧ bb.tacList = b.tacList ∧ f.Ends place k e bb := by
  have hk := hplace k hkept
  have hgoes : ∀ {j i}, f.Goes id j i → newBBNum bbs i = some (place i) ∧
      f.Goes place j (place i) := by
    rintro j i ⟨q, hq, hkq, rfl⟩
    exact ⟨hplace _ hkq, _, hq, hkq, rfl⟩
  cases h with
  | off hm hend he =>
    exact ⟨{ b with bbNum := place k }, by simp [renumber, hb, hk, hend], rfl, .off hm hend he⟩
  | on hm hend he hn hg =>
    obtain ⟨h0, hg⟩ := hgoes hg
    exact ⟨{ b with bbNum := place k, next := (place b.next.1, place b.next.1) },
      by simp [renumber, hb, hk, hend, hn, h0], rfl, .on hm hend he rfl hg⟩
  | ret ht hend he =>
    exact ⟨{ b with bbNum := place k }, by simp [renumber, hb, hk, hend], rfl, .ret ht hend he⟩
  | branch ht hend he hn hg =>
    obtain ⟨h0, hg⟩ := hgoes hg
    exact ⟨{ b with bbNum := place k, next := (place b.next.1, place b.next.1) },
      by simp [renumber, hb, hk, hend, hn, h0], rfl, .branch ht hend he rfl hg⟩
  | beqz ht hend he hg hg' =>
    obtain ⟨h0, hg⟩ := hgoes hg
    obtain ⟨h1, hg'⟩ := hgoes hg'
    have hret : b.endKind ≠ .BY_RETURN := by
      obtain h | ⟨h, -⟩ := hend <;> simp [h]
    refine ⟨{ b with bbNum := place k, next := (place b.next.1, place b.next.2) },
      by simp [renumber, hb, hk, hret, h0, h1], rfl, .beqz ht ?_ he hg hg'⟩
    exact hend.imp id fun h => ⟨h.1, congrArg place h.2⟩
  | bnez ht hend he hg hg' =>
    obtain ⟨h0, hg⟩ := hgoes hg
    obtain ⟨h1, hg'⟩ := hgoes hg'
    have hret : b.endKind ≠ .BY_RETURN := by
      obtain h | ⟨h, -⟩ := hend <;> simp [h]
    refine ⟨{ b with bbNum := place k, next := (place b.next.1, place b.next.2) },
      by simp [renumber, hb, hk, hret, h0, h1], rfl, .bnez ht ?_ he hg hg'⟩
    exact hend.imp id fun h => ⟨h.1, congrArg place h.2⟩

/-- The blocks after the redirecting loop. -/
theorem redirected_get {f : Functy} {fuel : Nat} {bbs : List BasicBlock}
    (h : f.counted.mapM (redirect f.counted fuel) = some bbs) {k : Nat} {p : Piece}
    (hp : f.pieces[k]? = some p) :
    ∃ b, bbs[k]? = some b ∧ (b.cancelled = true ↔ ¬ f.Kept k) ∧
      (f.Kept k → b.bbNum = k ∧ b.tacList = numbered k p.body ∧ f.Ends id k p.ender b) := by
  obtain ⟨d, c, hget, hc⟩ := f.counted_get hp
  obtain ⟨b, hb, hr⟩ := mapM_get h hget
  refine ⟨b, hb, ?_⟩
  cases c with
  | true =>
    have hn := hc.1 rfl
    rw [redirect_cancelled rfl] at hr
    obtain rfl := Option.some_inj.1 hr
    exact ⟨hc, fun hk => absurd hk hn⟩
  | false =>
    obtain ⟨hnum, hcan, htacs, hends⟩ := redirect_ends hp hr
    exact ⟨by rw [hcan]; exact hc, fun _ => ⟨hnum, htacs, hends⟩⟩

theorem Functy.Kept.piece {f : Functy} {k : Nat} (h : f.Kept k) : ∃ p, f.pieces[k]? = some p := by
  obtain ⟨-, p, hp, -⟩ := h
  exact ⟨p, hp⟩

theorem newBBNum_kept {f : Functy} {fuel : Nat} {bbs : List BasicBlock}
    (h : f.counted.mapM (redirect f.counted fuel) = some bbs) {k : Nat} (hk : f.Kept k) :
    newBBNum bbs k = some ((bbs.take k).countP fun bb => !bb.cancelled) := by
  obtain ⟨p, hp⟩ := hk.piece
  obtain ⟨b, hb, hc, -⟩ := redirected_get h hp
  have hcan : b.cancelled = false := by
    rw [← Bool.not_eq_true, hc]
    exact not_not.2 hk
  simp [newBBNum, hb, hcan]

theorem simplify_eq_some {f : Functy} {fuel : Nat} {g : List BasicBlock} :
    simplify fuel f.blocks = some g ↔
      ∃ bbs, f.counted.mapM (redirect f.counted fuel) = some bbs ∧
        (bbs.filter fun bb => !bb.cancelled).mapM (renumber bbs) = some g :=
  Option.bind_eq_some_iff

/-- A finished graph has a block for each piece that is kept. -/
theorem graph_of_simplify {f : Functy} {fuel : Nat} {g : List BasicBlock}
    (h : simplify fuel f.blocks = some g) : ∃ place, f.Graph place g := by
  obtain ⟨bbs, hbbs, hg⟩ := simplify_eq_some.1 h
  have hplace := fun q hq => @newBBNum_kept f fuel bbs hbbs q hq
  refine ⟨fun k => (bbs.take k).countP fun bb => !bb.cancelled, ?_, ?_, ?_⟩
  · intro k p hp hk
    obtain ⟨b, hb, hc, hends⟩ := redirected_get hbbs hp
    obtain ⟨hnum, htacs, hends⟩ := hends hk
    have hcan : (!b.cancelled) = true := by
      rw [Bool.not_eq_true', ← Bool.not_eq_true, hc]
      exact not_not.2 hk
    obtain ⟨bb, hbb, hr⟩ := mapM_get hg (filter_get hb hcan)
    obtain ⟨bb', hr', htacs', hends'⟩ := renumber_ends hk hnum hplace hends
    obtain rfl := Option.some_inj.1 (hr.symm.trans hr')
    exact ⟨bb, hbb, htacs'.trans htacs, hends'⟩
  · intro k hk hfirst
    rw [List.countP_eq_zero]
    intro b hb
    obtain ⟨i, hi⟩ := List.mem_iff_getElem?.1 hb
    rw [List.getElem?_take] at hi
    split at hi
    · next hlt =>
      obtain ⟨p, hp⟩ : ∃ p, f.pieces[i]? = some p := by
        obtain ⟨q, hq⟩ := hk.piece
        have := (List.getElem?_eq_some_iff.1 hq).1
        exact ⟨_, List.getElem?_eq_getElem (Nat.lt_trans hlt this)⟩
      obtain ⟨b', hb', hc, -⟩ := redirected_get hbbs hp
      obtain rfl := Option.some_inj.1 (hi.symm.trans hb')
      simp [hc.2 (hfirst i hlt)]
    · cases hi
  · intro hne
    by_contra hnone
    apply hne
    have hnil : (bbs.filter fun bb => !bb.cancelled) = [] := by
      rw [List.filter_eq_nil_iff]
      intro b hb
      obtain ⟨i, hi⟩ := List.mem_iff_getElem?.1 hb
      have hlt := (List.getElem?_eq_some_iff.1 hi).1
      rw [mapM_length hbbs, f.counted_length] at hlt
      obtain ⟨b', hb', hc, -⟩ := redirected_get hbbs (List.getElem?_eq_getElem hlt)
      obtain rfl := Option.some_inj.1 (hi.symm.trans hb')
      simp [hc.2 fun hk => hnone ⟨i, hk⟩]
    rw [hnil] at hg
    exact (Option.some_inj.1 hg).symm

/-- Finitely many bounds have a bound in common. -/
theorem exists_fuel {α : Type} {P : α → Nat → Prop} (hmono : ∀ a c c', c ≤ c' → P a c → P a c')
    {l : List α} (h : ∀ a ∈ l, ∃ c, P a c) : ∃ c, ∀ a ∈ l, P a c := by
  induction l with
  | nil => exact ⟨0, by simp⟩
  | cons x xs ih =>
    obtain ⟨c, hc⟩ := h x List.mem_cons_self
    obtain ⟨c', hc'⟩ := ih fun a ha => h a (List.mem_cons_of_mem _ ha)
    refine ⟨max c c', ?_⟩
    intro a ha
    obtain rfl | ha := List.mem_cons.1 ha
    · exact hmono _ _ _ (Nat.le_max_left c c') hc
    · exact hmono _ _ _ (Nat.le_max_right c c') (hc' a ha)

theorem Functy.Ends.goes {f : Functy} {place : Nat → Nat} {k : Nat} {p : Piece} {b : BasicBlock}
    (h : f.Ends place k p.ender b) {j : Nat} (hj : j ∈ p.ways f.num k (f.more k)) :
    ∃ i, f.Goes place j i := by
  unfold Piece.ways at hj
  generalize p.ender = e at h hj
  cases h with
  | off hm => simp [hm] at hj
  | on hm _ _ _ hg =>
    simp only [hm, if_true, List.mem_singleton] at hj
    exact ⟨_, hj ▸ hg⟩
  | ret ht => simp [ht] at hj
  | branch ht _ _ _ hg =>
    simp only [ht, List.mem_singleton] at hj
    exact ⟨_, hj ▸ hg⟩
  | beqz ht _ _ hg hg' =>
    simp only [ht, List.mem_cons, List.not_mem_nil, or_false] at hj
    obtain rfl | rfl := hj
    · exact ⟨_, hg'⟩
    · exact ⟨_, hg⟩
  | bnez ht _ _ hg hg' =>
    simp only [ht, List.mem_cons, List.not_mem_nil, or_false] at hj
    obtain rfl | rfl := hj
    · exact ⟨_, hg'⟩
    · exact ⟨_, hg⟩

/-- A fuel that is enough for every way that leads somewhere. -/
theorem exists_trace_fuel (f : Functy) :
    ∃ fuel, ∀ k, ∀ j ∈ f.ways k, ∀ q, f.LeadsTo j q → ∃ bb, trace f.counted fuel j = some bb := by
  have hmono : ∀ j c c', c ≤ c' → (∀ d q, f.LeadsIn d j q → d < c) →
      ∀ d q, f.LeadsIn d j q → d < c' := fun j c c' hc h d q hd => Nat.lt_of_lt_of_le (h d q hd) hc
  obtain ⟨fuel, hfuel⟩ := exists_fuel hmono (l := (List.range f.pieces.length).flatMap f.ways)
    (fun j _ => by
      by_cases h : ∃ d q, f.LeadsIn d j q
      · obtain ⟨d, q, hd⟩ := h
        exact ⟨d + 1, fun d' q' hd' => by rw [(hd'.unique hd).2]; exact Nat.lt_succ_self d⟩
      · exact ⟨0, fun d q hd => absurd ⟨d, q, hd⟩ h⟩)
  refine ⟨fuel, ?_⟩
  rintro k j hj q ⟨c, hc⟩
  have hk : k < f.pieces.length := by
    by_contra hlt
    rw [Functy.ways, List.getElem?_eq_none (Nat.le_of_not_lt hlt)] at hj
    cases hj
  have hlt := hfuel j (List.mem_flatMap.2 ⟨k, List.mem_range.2 hk, hj⟩) c q hc
  have hr : f.Reached j := Or.inr ⟨k, hj⟩
  obtain ⟨p, hp⟩ := (hc.kept hr).piece
  obtain ⟨d, b, hget, -⟩ := f.counted_get hp
  exact ⟨_, (trace_of_leads hc hr hlt).trans hget⟩

/-- The loops of `simplify` come to an end exactly when no way out of a block that is kept
runs into a ring of BRANCHes. -/
theorem simplify_total_iff (f : Functy) :
    (∃ fuel g, simplify fuel f.blocks = some g) ↔ f.NoRing := by
  constructor
  · rintro ⟨fuel, g, h⟩ k hk j hj
    obtain ⟨bbs, hbbs, -⟩ := simplify_eq_some.1 h
    obtain ⟨p, hp⟩ := hk.piece
    obtain ⟨b, -, -, hends⟩ := redirected_get hbbs hp
    obtain ⟨-, -, hends⟩ := hends hk
    rw [Functy.ways, hp] at hj
    obtain ⟨i, q, hq, -⟩ := hends.goes hj
    exact ⟨q, hq⟩
  · intro hring
    obtain ⟨fuel, hfuel⟩ := exists_trace_fuel f
    obtain ⟨bbs, hbbs⟩ : ∃ bbs, f.counted.mapM (redirect f.counted fuel) = some bbs := by
      apply mapM_total
      intro bb hbb
      obtain ⟨k, hk⟩ := List.mem_iff_getElem?.1 hbb
      obtain ⟨p, hp⟩ := f.piece_of_counted hk
      obtain ⟨d, c, hget, hc⟩ := f.counted_get hp
      obtain rfl := Option.some_inj.1 (hk.symm.trans hget)
      cases c with
      | true => exact ⟨_, redirect_cancelled rfl⟩
      | false =>
        have hkept : f.Kept k := by
          by_contra hn
          cases hc.2 hn
        apply redirect_total hp
        intro j hj
        obtain ⟨q, hq⟩ := hring k hkept j hj
        exact hfuel k j hj q hq
    obtain ⟨g, hg⟩ : ∃ g, (bbs.filter fun bb => !bb.cancelled).mapM (renumber bbs) = some g := by
      apply mapM_total
      intro bb hbb
      obtain ⟨hbb, hcan⟩ := List.mem_filter.1 hbb
      obtain ⟨k, hk⟩ := List.mem_iff_getElem?.1 hbb
      have hlt := (List.getElem?_eq_some_iff.1 hk).1
      rw [mapM_length hbbs, f.counted_length] at hlt
      obtain ⟨b', hb', hc, hends⟩ := redirected_get hbbs (List.getElem?_eq_getElem hlt)
      obtain rfl := Option.some_inj.1 (hk.symm.trans hb')
      have hkept : f.Kept k := by
        by_contra hn
        rw [hc.2 hn] at hcan
        cases hcan
      obtain ⟨hnum, -, hends⟩ := hends hkept
      obtain ⟨b, hb, -⟩ := renumber_ends hkept hnum (fun q hq => newBBNum_kept hbbs hq) hends
      exact ⟨b, hb⟩
    exact ⟨fuel, g, simplify_eq_some.2 ⟨bbs, hbbs, hg⟩⟩

end nehcpu.decaf
