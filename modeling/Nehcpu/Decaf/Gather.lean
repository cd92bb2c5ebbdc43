-- The two passes over the list, `markBasicBlocks` and `gatherBasicBlocks`, give one block for
-- each piece, in order, with the pieces' places as the block numbers.
import Nehcpu.Decaf.Pieces

namespace nehcpu.decaf

/-! ## markBasicBlocks -/

/-- The list from some point of the loop on, as it is marked from there. -/
def markFrom (target : Label → Bool) (k : Nat) (atStart : Bool) (nodes : List Node) :
    List Node :=
  markBasicBlocks target k atStart (deleteMemo nodes)

section

variable {target : Label → Bool} {k : Nat} {atStart : Bool} {n : Node} (rest : List Node)

theorem markFrom_memo {str : String} (h : n.tac = .memo str) :
    markFrom target k atStart (n :: rest) = markFrom target k atStart rest := by
  simp [markFrom, deleteMemo, h, Tac.isMemo]

theorem markFrom_unused {l : Label} (h : n.tac = .mark l) (hl : target l = false) :
    markFrom target k atStart (n :: rest) = markFrom target k atStart rest := by
  simp [markFrom, deleteMemo, h, Tac.isMemo, markBasicBlocks, hl]

theorem markFrom_target_start {l : Label} (h : n.tac = .mark l) (hl : target l = true) :
    markFrom target k true (n :: rest) =
      { n with bbNum := (k : Int) } :: markFrom target k true rest := by
  simp [markFrom, deleteMemo, h, Tac.isMemo, markBasicBlocks, hl]

theorem markFrom_target {l : Label} (h : n.tac = .mark l) (hl : target l = true) :
    markFrom target k false (n :: rest) = markFrom target (k + 1) true (n :: rest) := by
  simp [markFrom, deleteMemo, h, Tac.isMemo, markBasicBlocks, hl]

theorem markFrom_jump (h : n.tac.isJump = true) :
    markFrom target k atStart (n :: rest) =
      { n with bbNum := (k : Int) } :: markFrom target (k + 1) true rest := by
  obtain ⟨_, h⟩ | ⟨_, h⟩ | ⟨_, _, h⟩ | ⟨_, _, h⟩ := Tac.jump_kinds h <;>
    simp [markFrom, deleteMemo, h, Tac.isMemo, markBasicBlocks]

theorem markFrom_plain (h : n.tac.isPlain = true) :
    markFrom target k atStart (n :: rest) =
      { n with bbNum := (k : Int) } :: markFrom target k false rest := by
  cases ht : n.tac <;> simp_all [markFrom, deleteMemo, markBasicBlocks, Tac.isPlain, Tac.isMemo,
    Tac.isMark, Tac.marked?, Tac.isJump]

end

/-- In front of a label the marks of one block end and those of the next begin. -/
theorem markFrom_labelled {target : Label → Bool} {k : Nat} {nodes : List Node}
    (h : Labelled (pieces target nodes)) :
    markFrom target k false nodes = markFrom target (k + 1) true nodes := by
  induction nodes with
  | nil => exact h.elim
  | cons n rest ih =>
    obtain ⟨_, hn⟩ | ⟨l, hn⟩ | hn | hn := n.tac.kinds
    · rw [pieces_memo rest hn] at h
      rw [markFrom_memo rest hn, markFrom_memo rest hn, ih h]
    · cases hl : target l with
      | false =>
        rw [pieces_unused rest hn hl] at h
        rw [markFrom_unused rest hn hl, markFrom_unused rest hn hl, ih h]
      | true => exact markFrom_target rest hn hl
    · rw [pieces_jump rest hn] at h
      exact absurd rfl h
    · rw [pieces_plain rest hn] at h
      exact absurd h (not_labelled_addTac n _)

theorem markFrom_eq_nil {target : Label → Bool} {k : Nat} {atStart : Bool} {nodes : List Node}
    (h : pieces target nodes = []) : markFrom target k atStart nodes = [] := by
  induction nodes with
  | nil => rfl
  | cons n rest ih =>
    have hrest : pieces target rest = [] :=
      pieces_eq_nil_iff.2 fun m hm => pieces_eq_nil_iff.1 h m (List.mem_cons_of_mem _ hm)
    have hn := pieces_eq_nil_iff.1 h n List.mem_cons_self
    cases ht : n.tac with
    | memo str => rw [markFrom_memo rest ht, ih hrest]
    | mark l =>
      rw [ht] at hn
      rw [markFrom_unused rest ht hn, ih hrest]
    | _ =>
      rw [ht] at hn
      cases hn

/-- A block begins with its own number. -/
theorem nextBBNum_markFrom {target : Label → Bool} {k : Nat} {nodes : List Node} :
    nextBBNum (markFrom target k true nodes) =
      if pieces target nodes = [] then none else some k := by
  induction nodes with
  | nil => simp [markFrom, deleteMemo, markBasicBlocks, nextBBNum, pieces]
  | cons n rest ih =>
    obtain ⟨_, hn⟩ | ⟨l, hn⟩ | hn | hn := n.tac.kinds
    · rw [pieces_memo rest hn, markFrom_memo rest hn, ih]
    · cases hl : target l with
      | false => rw [pieces_unused rest hn hl, markFrom_unused rest hn hl, ih]
      | true =>
        rw [pieces_target rest hn hl, markFrom_target_start rest hn hl]
        cases pieces target rest <;> simp [nextBBNum, addLabel]
    · rw [pieces_jump rest hn, markFrom_jump rest hn]
      simp [nextBBNum]
    · rw [pieces_plain rest hn, markFrom_plain rest hn]
      have h : addTac n (pieces target rest) ≠ [] := by
        cases h : pieces target rest with
        | nil => simp [addTac]
        | cons p ps => by_cases hp : p.labels = [] <;> simp [addTac, hp]
      simp [nextBBNum, h]

/-! ## gatherBasicBlocks -/

/-- What one turn of the loop makes of `start`: the instructions of the first piece, and a
rest that is marked from the next number on. -/
structure Opens (target : Label → Bool) (k : Nat) (start : List Node) (p : Piece)
    (ps : List Piece) : Prop where
  tacs : blockTacs start = numbered k (p.body ++ p.ender.toList)
  next : ∃ rest, nextStart start = markFrom target (k + 1) true rest ∧ pieces target rest = ps

/-- The same of a list that is in the middle of a block. -/
structure RunsOn (target : Label → Bool) (k : Nat) (start : List Node) (p : Piece)
    (ps : List Piece) : Prop where
  tacs : start.takeWhile (·.bbNum = (k : Int)) = numbered k (p.body ++ p.ender.toList)
  next : ∃ rest, start.dropWhile (·.bbNum = (k : Int)) = markFrom target (k + 1) true rest ∧
    pieces target rest = ps

/-- Behind the block nothing carries its number. -/
theorem markFrom_other {target : Label → Bool} {k : Nat} {nodes : List Node} :
    (markFrom target (k + 1) true nodes).takeWhile (·.bbNum = (k : Int)) = [] ∧
      (markFrom target (k + 1) true nodes).dropWhile (·.bbNum = (k : Int)) =
        markFrom target (k + 1) true nodes := by
  have h := @nextBBNum_markFrom target (k + 1) nodes
  cases hm : markFrom target (k + 1) true nodes with
  | nil => simp
  | cons n rest =>
    have hn : n.bbNum ≠ (k : Int) := by
      rw [hm] at h
      simp only [nextBBNum, List.head?_cons, Option.map_some] at h
      split at h
      · cases h
      · have := Option.some_inj.1 h
        omega
    simp [hn]

theorem runsOn_of_pieces {target : Label → Bool} {k : Nat} {nodes : List Node} {p : Piece}
    {ps : List Piece} (hp : p.labels = []) (h : pieces target nodes = p :: ps) :
    RunsOn target k (markFrom target k false nodes) p ps := by
  induction nodes generalizing p ps with
  | nil => cases h
  | cons n rest ih =>
    obtain ⟨_, hn⟩ | ⟨l, hn⟩ | hn | hn := n.tac.kinds
    · rw [pieces_memo rest hn] at h
      rw [markFrom_memo rest hn]
      exact ih hp h
    · cases hl : target l with
      | false =>
        rw [pieces_unused rest hn hl] at h
        rw [markFrom_unused rest hn hl]
        exact ih hp h
      | true =>
        rw [pieces_target rest hn hl] at h
        have hlab := labelled_addLabel l (pieces target rest)
        rw [h] at hlab
        exact absurd hp hlab
    · rw [pieces_jump rest hn] at h
      obtain ⟨rfl, rfl⟩ := List.cons_eq_cons.1 h
      rw [markFrom_jump rest hn]
      obtain ⟨htake, hdrop⟩ := @markFrom_other target k rest
      refine ⟨?_, rest, ?_, rfl⟩
      · simp [htake]
      · simp [hdrop]
    · rw [pieces_plain rest hn] at h
      rw [markFrom_plain rest hn]
      cases hps : pieces target rest with
      | nil =>
        rw [hps] at h
        obtain ⟨rfl, rfl⟩ := List.cons_eq_cons.1 h
        rw [markFrom_eq_nil hps]
        refine ⟨?_, rest, ?_, hps⟩
        · simp
        · simp [markFrom_eq_nil hps]
      | cons q qs =>
        rw [hps] at h
        by_cases hq : q.labels = []
        · rw [addTac, if_pos hq] at h
          obtain ⟨rfl, rfl⟩ := List.cons_eq_cons.1 h
          obtain ⟨htacs, rest', hnext, hrest'⟩ := ih hq hps
          refine ⟨?_, rest', ?_, hrest'⟩
          · simp [htacs]
          · simp [hnext]
        · rw [addTac, if_neg hq] at h
          obtain ⟨rfl, rfl⟩ := List.cons_eq_cons.1 h
          rw [@markFrom_labelled target k rest (by rw [hps]; exact hq)]
          obtain ⟨htake, hdrop⟩ := @markFrom_other target k rest
          refine ⟨?_, rest, ?_, hps⟩
          · simp [htake]
          · simp [hdrop]

theorem opens_of_pieces {target : Label → Bool} {k : Nat} {nodes : List Node} {p : Piece}
    {ps : List Piece} (h : pieces target nodes = p :: ps) :
    Opens target k (markFrom target k true nodes) p ps := by
  induction nodes generalizing p ps with
  | nil => cases h
  | cons n rest ih =>
    obtain ⟨_, hn⟩ | ⟨l, hn⟩ | hn | hn := n.tac.kinds
    · rw [pieces_memo rest hn] at h
      rw [markFrom_memo rest hn]
      exact ih h
    · cases hl : target l with
      | false =>
        rw [pieces_unused rest hn hl] at h
        rw [markFrom_unused rest hn hl]
        exact ih h
      | true =>
        rw [pieces_target rest hn hl] at h
        rw [markFrom_target_start rest hn hl]
        cases hps : pieces target rest with
        | nil =>
          rw [hps] at h
          obtain ⟨rfl, rfl⟩ := List.cons_eq_cons.1 h
          rw [markFrom_eq_nil hps]
          refine ⟨?_, rest, ?_, hps⟩
          · simp [blockTacs, hn, Tac.isMark, Tac.marked?]
          · simp [nextStart, hn, Tac.isMark, Tac.marked?, markFrom_eq_nil hps]
        | cons q qs =>
          rw [hps] at h
          obtain ⟨rfl, rfl⟩ := List.cons_eq_cons.1 h
          obtain ⟨htacs, rest', hnext, hrest'⟩ := ih hps
          refine ⟨?_, rest', ?_, hrest'⟩
          · rw [← htacs]
            simp [blockTacs, hn, Tac.isMark, Tac.marked?]
          · rw [← hnext]
            simp [nextStart, hn, Tac.isMark, Tac.marked?]
    · rw [pieces_jump rest hn] at h
      obtain ⟨rfl, rfl⟩ := List.cons_eq_cons.1 h
      have hmark : n.tac.isMark = false := by
        obtain ⟨_, ht⟩ | ⟨_, ht⟩ | ⟨_, _, ht⟩ | ⟨_, _, ht⟩ := Tac.jump_kinds hn <;> simp [ht] <;> rfl
      rw [markFrom_jump rest hn]
      obtain ⟨htake, hdrop⟩ := @markFrom_other target k rest
      refine ⟨?_, rest, ?_, rfl⟩
      · simp [blockTacs, hmark, htake]
      · simp [nextStart, hmark, hdrop]
    · have hlab : p.labels = [] := by
        rw [pieces_plain rest hn] at h
        have := not_labelled_addTac n (pieces target rest)
        rw [h] at this
        exact not_not.1 this
      obtain ⟨htacs, rest', hnext, hrest'⟩ := @runsOn_of_pieces target k _ _ _ hlab h
      have hmark : n.tac.isMark = false := by
        rw [Tac.isPlain] at hn
        simp_all
      rw [markFrom_plain rest hn] at htacs hnext ⊢
      refine ⟨?_, rest', ?_, hrest'⟩
      · rw [← htacs]
        simp [blockTacs, hmark]
      · rw [← hnext]
        simp [nextStart, hmark]

/-- One block for each piece, from any point on where a block begins. -/
theorem gatherFrom_markFrom {target : Label → Bool} {known : Label → Prop} {nodes : List Node}
    {num : Label → Nat} (hnum : ∀ l, known l → whereBBNum nodes l = some (num l))
    {ps : List Piece} (hok : PiecesOk ps) (hlink : Linked known ps) (k : Nat) {rest : List Node}
    (h : pieces target rest = ps) :
    gatherFrom nodes (markFrom target k true rest) = some (blocksFrom num k ps) := by
  induction ps generalizing k rest with
  | nil =>
    rw [markFrom_eq_nil h, gatherFrom]
    rfl
  | cons p ps ih =>
    obtain ⟨htacs, rest', hnext, hrest'⟩ := @opens_of_pieces target k rest p ps h
    have hbegin := @nextBBNum_markFrom target k rest
    cases hm : markFrom target k true rest with
    | nil => simp [hm, h, nextBBNum] at hbegin
    | cons n start =>
      rw [hm] at hbegin htacs hnext
      have hn : n.bbNum.toNat = k := by simpa [nextBBNum, h] using hbegin
      have hend : nextBBNum (nextStart (n :: start)) = if ps = [] then none else some (k + 1) := by
        rw [hnext, nextBBNum_markFrom, hrest']
      rw [gatherFrom, hn, htacs, endBlock_eq hnum hok hlink hend, hnext,
        ih hok.2.2.2 hlink.2 (k + 1) hrest']
      rfl

/-! ## Block numbers of labels -/

/-- The number that the first piece of a list gets. -/
def firstNum (k : Nat) (atStart : Bool) (ps : List Piece) : Nat :=
  match ps with
  | [] => k
  | p :: _ => if atStart ∨ p.labels = [] then k else k + 1

theorem whereBBNum_cons {m : Node} {nodes : List Node} {l : Label} :
    whereBBNum (m :: nodes) l =
      if m.tac.marked? = some l then some m.bbNum.toNat else whereBBNum nodes l := by
  by_cases h : m.tac.marked? = some l <;> simp [whereBBNum, h]

theorem pieceOf_cons (p : Piece) (ps : List Piece) (l : Label) :
    pieceOf (p :: ps) l = if l ∈ p.labels then 0 else pieceOf ps l + 1 := by
  by_cases h : l ∈ p.labels <;> simp [pieceOf, List.findIdx_cons, h]

theorem pieceOf_addLabel {l l' : Label} (h : l' ≠ l) {ps : List Piece} (hps : ps ≠ []) :
    pieceOf (addLabel l' ps) l = pieceOf ps l := by
  cases ps with
  | nil => exact absurd rfl hps
  | cons p ps => simp [addLabel, pieceOf_cons, h.symm]

/-- A label that is marked and jumped to stands in front of some piece. -/
theorem pieces_ne_nil {target : Label → Bool} {l : Label} (hl : target l = true)
    {nodes : List Node} (h : l ∈ nodes.filterMap fun n => n.tac.marked?) :
    pieces target nodes ≠ [] := by
  intro hnil
  obtain ⟨n, hn, hmark⟩ := List.mem_filterMap.1 h
  have hs := pieces_eq_nil_iff.1 hnil n hn
  cases ht : n.tac with
  | mark l' =>
    rw [ht] at hmark hs
    obtain rfl := Option.some_inj.1 hmark
    rw [Tac.stays, hl] at hs
    cases hs
  | _ =>
    rw [ht] at hmark
    cases hmark

theorem whereBBNum_markFrom {target : Label → Bool} {l : Label} (hl : target l = true)
    {nodes : List Node} (h : l ∈ nodes.filterMap fun n => n.tac.marked?) (k : Nat)
    (atStart : Bool) :
    whereBBNum (markFrom target k atStart nodes) l =
      some (firstNum k atStart (pieces target nodes) + pieceOf (pieces target nodes) l) := by
  induction nodes generalizing k atStart with
  | nil => cases h
  | cons n rest ih =>
    rw [List.filterMap_cons] at h
    obtain ⟨_, hn⟩ | ⟨l', hn⟩ | hn | hn := n.tac.kinds
    · rw [pieces_memo rest hn, markFrom_memo rest hn]
      exact ih (by simpa [hn, Tac.marked?] using h) k atStart
    · simp only [hn, Tac.marked?, List.mem_cons] at h
      cases hl' : target l' with
      | false =>
        have hne : l ≠ l' := by
          rintro rfl
          rw [hl] at hl'
          cases hl'
        rw [pieces_unused rest hn hl', markFrom_unused rest hn hl']
        exact ih (h.resolve_left hne) k atStart
      | true =>
        -- the label opens a block, or stands in front of one that has just been opened
        have hat : ∀ k, whereBBNum (markFrom target k true (n :: rest)) l =
            some (k + pieceOf (addLabel l' (pieces target rest)) l) := by
          intro k
          rw [markFrom_target_start rest hn hl', whereBBNum_cons]
          by_cases heq : l' = l
          · subst heq
            cases pieces target rest <;> simp [hn, Tac.marked?, addLabel, pieceOf_cons]
          · have hrest := h.resolve_left (Ne.symm heq)
            have hps := pieces_ne_nil hl hrest
            have := ih hrest k true
            rw [if_neg (by simpa [hn, Tac.marked?] using heq), this, pieceOf_addLabel heq hps]
            cases hps' : pieces target rest with
            | nil => exact absurd hps' hps
            | cons p ps => simp [firstNum]
        have hfirst : ∀ atStart, firstNum k atStart (addLabel l' (pieces target rest)) =
            if atStart then k else k + 1 := by
          intro atStart
          cases atStart <;> cases pieces target rest <;> simp [addLabel, firstNum]
        rw [pieces_target rest hn hl', hfirst]
        cases atStart with
        | true => exact hat k
        | false => rw [markFrom_target rest hn hl']; exact hat (k + 1)
    · have hmark : n.tac.marked? = none := by
        obtain ⟨_, ht⟩ | ⟨_, ht⟩ | ⟨_, _, ht⟩ | ⟨_, _, ht⟩ := Tac.jump_kinds hn <;> simp [ht] <;> rfl
      rw [hmark] at h
      have hrest := ih h (k + 1) true
      rw [pieces_jump rest hn, markFrom_jump rest hn, whereBBNum_cons, if_neg (by simp [hmark]),
        hrest, pieceOf_cons]
      cases pieces target rest <;> simp [firstNum] <;> omega
    · have hmark : n.tac.marked? = none := by
        rw [Tac.isPlain] at hn
        simp_all [Tac.isMark]
      rw [hmark] at h
      have hrest := ih h k false
      rw [pieces_plain rest hn, markFrom_plain rest hn, whereBBNum_cons, if_neg (by simp [hmark]),
        hrest]
      cases hps : pieces target rest with
      | nil => exact absurd hps (pieces_ne_nil hl h)
      | cons p ps =>
        by_cases hp : p.labels = []
        · simp [addTac, firstNum, hp, pieceOf_cons]
        · simp [addTac, firstNum, hp, pieceOf_cons]
          omega

/-! ## The blocks of a function -/

def Functy.pieces (f : Functy) : List Piece := decaf.pieces f.target f.nodes

/-- The piece that a label of the function stands in front of. -/
def Functy.num (f : Functy) (l : Label) : Nat := pieceOf f.pieces l

theorem Functy.nodes_tac (f : Functy) : f.nodes.map Node.tac = f.head := by
  rw [Functy.nodes, List.map_map]
  exact List.zipIdx_map_fst 0 f.head

theorem Functy.nodes_filterMap {α : Type} (f : Functy) (g : Tac → Option α) :
    (f.nodes.filterMap fun n => g n.tac) = f.head.filterMap g := by
  rw [← f.nodes_tac, List.filterMap_map]
  rfl

theorem Functy.target_of_jump (f : Functy) {n : Node} (hn : n ∈ f.nodes) {l : Label}
    (h : n.tac.target? = some l) : f.target l = true := by
  have hm : n.tac ∈ f.head := by
    rw [← f.nodes_tac]
    exact List.mem_map_of_mem hn
  rw [Functy.target, isTarget, Bool.or_eq_true, List.any_eq_true]
  exact Or.inr ⟨n.tac, hm, by simp [h]⟩

/-- A label that some jump goes to. -/
def Functy.Known (f : Functy) (l : Label) : Prop :=
  f.target l = true ∧ l ∈ f.nodes.filterMap fun n => n.tac.marked?

theorem Functy.known_of_jump (f : Functy) {n : Node} (hn : n ∈ f.nodes) {l : Label}
    (h : n.tac.target? = some l) : f.Known l := by
  refine ⟨f.target_of_jump hn h, ?_⟩
  rw [f.nodes_filterMap Tac.marked?]
  apply f.jumpsMarked
  rw [← f.nodes_filterMap]
  exact List.mem_filterMap.2 ⟨n, hn, h⟩

theorem Functy.pieces_ok (f : Functy) : PiecesOk f.pieces := decaf.pieces_ok f.target f.nodes

theorem Functy.pieces_linked (f : Functy) : Linked f.Known f.pieces := by
  apply decaf.pieces_linked
  · intro n hn l hl
    exact f.known_of_jump hn hl
  · rw [f.nodes_tac]
    exact f.testsFollowed

/-- The function begins with its entry label. -/
theorem Functy.nodes_cons (f : Functy) :
    ∃ n rest, f.nodes = n :: rest ∧ n.tac = .mark f.label := by
  have hopens := f.opens
  cases h : f.head with
  | nil => rw [h] at hopens; cases hopens
  | cons t body =>
    rw [h] at hopens
    exact ⟨{ pos := 0, tac := t, bbNum := 0 }, _, by rw [Functy.nodes, h, List.zipIdx_cons, List.map_cons],
      Option.some_inj.1 hopens⟩

theorem Functy.target_label (f : Functy) : f.target f.label = true := by
  simp [Functy.target, isTarget]

/-- The loop of `markBasicBlocks` meets the entry label first, so block 0 opens there. -/
theorem Functy.marked_eq (f : Functy) : f.marked = markFrom f.target 0 true f.nodes := by
  obtain ⟨n, rest, hnodes, hn⟩ := f.nodes_cons
  simp [Functy.marked, markFrom, hnodes, deleteMemo, hn, Tac.isMemo, markBasicBlocks,
    f.target_label]

theorem Functy.whereBBNum_eq (f : Functy) {l : Label} (h : f.Known l) :
    whereBBNum f.marked l = some (f.num l) := by
  rw [f.marked_eq, whereBBNum_markFrom h.1 h.2]
  have hne := pieces_ne_nil h.1 h.2
  cases hps : decaf.pieces f.target f.nodes with
  | nil => exact absurd hps hne
  | cons p ps => simp [firstNum, Functy.num, Functy.pieces, hps]

/-- `gatherBasicBlocks` makes one block of each piece, and skips nothing. -/
theorem Functy.gather_eq (f : Functy) :
    gatherBasicBlocks f.marked = some (blocksFrom f.num 0 f.pieces) := by
  have hskip : f.marked.dropWhile (·.bbNum < 0) = f.marked := by
    obtain ⟨n, rest, hnodes, hn⟩ := f.nodes_cons
    rw [f.marked_eq, hnodes, markFrom_target_start rest hn f.target_label]
    simp
  rw [gatherBasicBlocks, hskip]
  nth_rewrite 2 [f.marked_eq]
  exact gatherFrom_markFrom (fun l hl => f.whereBBNum_eq hl) f.pieces_ok f.pieces_linked 0 rfl

end nehcpu.decaf
