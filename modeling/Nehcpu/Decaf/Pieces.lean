-- What the basic blocks of a function are, said of its list without numbers: stretches of
-- plain instructions, each with the labels in front of it and the jump behind it. The blocks
-- that `FlowGraph` gathers are these pieces.
import Nehcpu.Decaf.FlowGraph

namespace nehcpu.decaf

/-! ## Pieces -/

structure Piece where
  labels : List Label
  body : List Node
  ender : Option Node

/-- A label in front of what follows. -/
def addLabel (l : Label) : List Piece → List Piece
  | [] => [⟨[l], [], none⟩]
  | p :: ps => { p with labels := l :: p.labels } :: ps

/-- A plain instruction in front of what follows: a label starts a piece of its own. -/
def addTac (n : Node) : List Piece → List Piece
  | [] => [⟨[], [n], none⟩]
  | p :: ps =>
    if p.labels = [] then { p with body := n :: p.body } :: ps else ⟨[], [n], none⟩ :: p :: ps

def pieces (target : Label → Bool) : List Node → List Piece
  | [] => []
  | n :: rest =>
    match n.tac with
    | .memo _ => pieces target rest
    | .mark l => if target l then addLabel l (pieces target rest) else pieces target rest
    | .ret _ | .branch _ | .beqz _ _ | .bnez _ _ => ⟨[], [], some n⟩ :: pieces target rest
    | _ => addTac n (pieces target rest)

/-- The place of the piece that a label stands in front of. -/
def pieceOf (ps : List Piece) (l : Label) : Nat := ps.findIdx fun p => l ∈ p.labels

section

variable {target : Label → Bool} {n : Node} (rest : List Node)

theorem pieces_memo {str : String} (h : n.tac = .memo str) :
    pieces target (n :: rest) = pieces target rest := by
  simp [pieces, h]

theorem pieces_target {l : Label} (h : n.tac = .mark l) (hl : target l = true) :
    pieces target (n :: rest) = addLabel l (pieces target rest) := by
  simp [pieces, h, hl]

theorem pieces_unused {l : Label} (h : n.tac = .mark l) (hl : target l = false) :
    pieces target (n :: rest) = pieces target rest := by
  simp [pieces, h, hl]

theorem pieces_jump (h : n.tac.isJump = true) :
    pieces target (n :: rest) = ⟨[], [], some n⟩ :: pieces target rest := by
  obtain ⟨_, h⟩ | ⟨_, h⟩ | ⟨_, _, h⟩ | ⟨_, _, h⟩ := Tac.jump_kinds h <;> simp [pieces, h]

theorem pieces_plain (h : n.tac.isPlain = true) :
    pieces target (n :: rest) = addTac n (pieces target rest) := by
  cases ht : n.tac <;> simp_all [pieces, Tac.isPlain, Tac.isMemo, Tac.isMark, Tac.marked?,
    Tac.isJump]

end

/-- The first piece has a label in front of it. -/
def Labelled : List Piece → Prop
  | [] => False
  | p :: _ => p.labels ≠ []

theorem labelled_addLabel (l : Label) (ps : List Piece) : Labelled (addLabel l ps) := by
  cases ps <;> simp [addLabel, Labelled]

theorem not_labelled_addTac (n : Node) (ps : List Piece) : ¬ Labelled (addTac n ps) := by
  cases ps with
  | nil => simp [addTac, Labelled]
  | cons p ps =>
    by_cases hp : p.labels = [] <;> simp [addTac, Labelled, hp]

/-- What pieces look like: a piece without a jump at its end has an instruction or is the
last one, and it ends in front of a label or of nothing. -/
def PiecesOk : List Piece → Prop
  | [] => True
  | p :: ps =>
    (∀ n ∈ p.body, n.tac.isPlain = true) ∧ (∀ n, p.ender = some n → n.tac.isJump = true) ∧
      (p.ender = none → ps ≠ [] → p.body ≠ [] ∧ Labelled ps) ∧ PiecesOk ps

theorem piecesOk_addLabel (l : Label) {ps : List Piece} (h : PiecesOk ps) :
    PiecesOk (addLabel l ps) := by
  cases ps with
  | nil => simp [addLabel, PiecesOk]
  | cons p ps => exact h

theorem piecesOk_addTac {n : Node} (hn : n.tac.isPlain = true) {ps : List Piece}
    (h : PiecesOk ps) : PiecesOk (addTac n ps) := by
  cases ps with
  | nil => simpa [addTac, PiecesOk] using hn
  | cons p ps =>
    by_cases hp : p.labels = []
    · rw [addTac, if_pos hp]
      obtain ⟨hb, he, hl, hps⟩ := h
      refine ⟨?_, he, ?_, hps⟩
      · intro m hm
        obtain rfl | hm := List.mem_cons.1 hm
        · exact hn
        · exact hb m hm
      · intro he' hps'
        exact ⟨by simp, (hl he' hps').2⟩
    · rw [addTac, if_neg hp]
      refine ⟨?_, by simp, fun _ _ => ⟨by simp, hp⟩, h⟩
      intro m hm
      obtain rfl := List.mem_singleton.1 hm
      exact hn

theorem pieces_ok (target : Label → Bool) (nodes : List Node) :
    PiecesOk (pieces target nodes) := by
  induction nodes with
  | nil => trivial
  | cons n rest ih =>
    obtain ⟨_, hn⟩ | ⟨l, hn⟩ | hn | hn := n.tac.kinds
    · rw [pieces_memo rest hn]; exact ih
    · cases hl : target l with
      | false => rw [pieces_unused rest hn hl]; exact ih
      | true => rw [pieces_target rest hn hl]; exact piecesOk_addLabel l ih
    · rw [pieces_jump rest hn]
      refine ⟨by simp, ?_, by simp, ih⟩
      intro m hm
      obtain rfl := Option.some_inj.1 hm
      exact hn
    · rw [pieces_plain rest hn]; exact piecesOk_addTac hn ih

/-- The instruction is gone when the blocks are cut, so no piece has it. -/
theorem pieces_eq_nil_iff {target : Label → Bool} {nodes : List Node} :
    pieces target nodes = [] ↔ ∀ n ∈ nodes, n.tac.stays target = false := by
  induction nodes with
  | nil => simp [pieces]
  | cons n rest ih =>
    obtain ⟨_, hn⟩ | ⟨l, hn⟩ | hn | hn := n.tac.kinds
    · rw [pieces_memo rest hn, ih]
      simp [hn, Tac.stays]
    · cases hl : target l with
      | false =>
        rw [pieces_unused rest hn hl, ih]
        simp [hn, Tac.stays, hl]
      | true =>
        rw [pieces_target rest hn hl]
        cases pieces target rest <;> simp [addLabel, hn, Tac.stays, hl]
    · rw [pieces_jump rest hn]
      obtain ⟨_, hn⟩ | ⟨_, hn⟩ | ⟨_, _, hn⟩ | ⟨_, _, hn⟩ := Tac.jump_kinds hn <;>
        simp [hn, Tac.stays]
    · rw [pieces_plain rest hn]
      have hs : n.tac.stays target = true := by
        cases ht : n.tac <;>
          simp_all [Tac.isPlain, Tac.isMemo, Tac.isMark, Tac.marked?, Tac.stays]
      cases h : pieces target rest with
      | nil => simp [addTac, hs]
      | cons p ps => by_cases hp : p.labels = [] <;> simp [addTac, hp, hs]

/-- Each jump at the end of a piece goes to a label that is known, and a test has a piece
behind it. -/
def Linked (known : Label → Prop) : List Piece → Prop
  | [] => True
  | p :: ps =>
    (∀ n, p.ender = some n →
      (∀ l, n.tac.target? = some l → known l) ∧ (n.tac.isTest = true → ps ≠ [])) ∧
      Linked known ps

theorem linked_addLabel {known : Label → Prop} (l : Label) {ps : List Piece}
    (h : Linked known ps) : Linked known (addLabel l ps) := by
  cases ps with
  | nil => simp [addLabel, Linked]
  | cons p ps => exact h

theorem linked_addTac {known : Label → Prop} (n : Node) {ps : List Piece}
    (h : Linked known ps) : Linked known (addTac n ps) := by
  cases ps with
  | nil => simp [addTac, Linked]
  | cons p ps =>
    by_cases hp : p.labels = []
    · rw [addTac, if_pos hp]
      exact h
    · rw [addTac, if_neg hp]
      exact ⟨by simp, h⟩

theorem pieces_linked {target : Label → Bool} {known : Label → Prop} {nodes : List Node}
    (hl : ∀ n ∈ nodes, ∀ l, n.tac.target? = some l → known l)
    (ht : testsFollowed target (nodes.map Node.tac) = true) :
    Linked known (pieces target nodes) := by
  induction nodes with
  | nil => trivial
  | cons n rest ih =>
    simp only [List.map_cons, testsFollowed, Bool.and_eq_true] at ht
    have ih := ih (fun m hm => hl m (List.mem_cons_of_mem _ hm)) ht.2
    obtain ⟨_, hn⟩ | ⟨l, hn⟩ | hn | hn := n.tac.kinds
    · rw [pieces_memo rest hn]; exact ih
    · cases hl : target l with
      | false => rw [pieces_unused rest hn hl]; exact ih
      | true => rw [pieces_target rest hn hl]; exact linked_addLabel l ih
    · rw [pieces_jump rest hn]
      refine ⟨?_, ih⟩
      intro m hm
      obtain rfl := Option.some_inj.1 hm
      refine ⟨hl n List.mem_cons_self, fun htest hnil => ?_⟩
      have hany := ht.1
      simp only [htest, Bool.not_true, Bool.false_or, List.any_map, List.any_eq_true] at hany
      obtain ⟨u, hu, hs⟩ := hany
      rw [Function.comp_apply, pieces_eq_nil_iff.1 hnil u hu] at hs
      cases hs
    · rw [pieces_plain rest hn]; exact linked_addTac n ih

/-! ## Blocks from pieces -/

/-- Instructions with the number of their block. -/
def numbered (k : Nat) (ns : List Node) : List Node := ns.map fun n => { n with bbNum := k }

@[simp] theorem numbered_nil (k : Nat) : numbered k [] = [] := rfl

@[simp] theorem numbered_cons (k : Nat) (n : Node) (ns : List Node) :
    numbered k (n :: ns) = { n with bbNum := (k : Int) } :: numbered k ns := rfl

@[simp] theorem numbered_append (k : Nat) (ns ms : List Node) :
    numbered k (ns ++ ms) = numbered k ns ++ numbered k ms := List.map_append

@[simp] theorem numbered_eq_nil {k : Nat} {ns : List Node} : numbered k ns = [] ↔ ns = [] :=
  List.map_eq_nil_iff

/-- The block of a piece. `num` numbers the labels, and `more` says that a piece follows. -/
def toBlock (num : Label → Nat) (k : Nat) (more : Bool) (p : Piece) : BasicBlock :=
  let bb := newBlock k (numbered k p.body)
  match p.ender with
  | none =>
    if more then { bb with endKind := .BY_BRANCH, next := (k + 1, k + 1) }
    else { bb with endKind := .BY_RETURN }
  | some n =>
    match n.tac with
    | .ret op0 => { bb with endKind := .BY_RETURN, var := op0, ender := some n.pos }
    | .branch l => { bb with endKind := .BY_BRANCH, next := (num l, num l) }
    | .beqz op0 l =>
      { bb with endKind := .BY_BEQZ, var := some op0, next := (num l, k + 1), ender := some n.pos }
    | .bnez op0 l =>
      { bb with endKind := .BY_BNEZ, var := some op0, next := (num l, k + 1), ender := some n.pos }
    | _ => bb

def blocksFrom (num : Label → Nat) (k : Nat) : List Piece → List BasicBlock
  | [] => []
  | p :: ps => toBlock num k (!ps.isEmpty) p :: blocksFrom num (k + 1) ps

theorem endBlock_eq {known : Label → Prop} {nodes rest : List Node} {num : Label → Nat} {k : Nat}
    {p : Piece} {ps : List Piece} (hnum : ∀ l, known l → whereBBNum nodes l = some (num l))
    (hok : PiecesOk (p :: ps)) (hlink : Linked known (p :: ps))
    (hnext : nextBBNum rest = if ps = [] then none else some (k + 1)) :
    endBlock nodes k (numbered k (p.body ++ p.ender.toList)) rest =
      some (toBlock num k (!ps.isEmpty) p) := by
  obtain ⟨hbody, hjump, hopen, -⟩ := hok
  cases he : p.ender with
  | none =>
    rw [Option.toList_none, List.append_nil]
    obtain hb | ⟨front, last, hb⟩ := p.body.eq_nil_or_concat'
    · have hps : ps = [] := by
        by_contra hps
        exact (hopen he hps).1 hb
      simp [endBlock, toBlock, he, hb, hps]
    · have hplain : last.tac.isPlain = true := hbody last (by simp [hb])
      by_cases hps : ps = [] <;> cases ht : last.tac <;>
        simp_all [endBlock, toBlock, Tac.isPlain, Tac.isMemo, Tac.isMark, Tac.marked?,
          Tac.isJump, newBlock]
  | some n =>
    have hn := hjump n he
    have hlink := hlink.1 n he
    obtain ⟨_, ht⟩ | ⟨l, ht⟩ | ⟨_, l, ht⟩ | ⟨_, l, ht⟩ := Tac.jump_kinds hn
    · simp [endBlock, toBlock, he, ht, newBlock]
    · have hl := hnum l (hlink.1 l (by simp [ht, Tac.target?]))
      simp [endBlock, toBlock, he, ht, hl, newBlock]
    · have hl := hnum l (hlink.1 l (by simp [ht, Tac.target?]))
      have hps : ps ≠ [] := hlink.2 (by simp [ht, Tac.isTest])
      simp [endBlock, toBlock, he, ht, hl, hnext, hps, newBlock]
    · have hl := hnum l (hlink.1 l (by simp [ht, Tac.target?]))
      have hps : ps ≠ [] := hlink.2 (by simp [ht, Tac.isTest])
      simp [endBlock, toBlock, he, ht, hl, hnext, hps, newBlock]

end nehcpu.decaf
