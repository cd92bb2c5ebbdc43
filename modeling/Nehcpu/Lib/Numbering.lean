-- Numbering the nodes of a graph in which every node has at most one successor: walks over the nodes
-- that have no number yet, and what the numbers say about its cycles.
import Mathlib.Data.Finset.Card
import Mathlib.Logic.Relation
import Mathlib.Logic.Function.Basic

namespace nehcpu.numbering

open Relation

variable {α : Type*}

/-! ## Following the links -/

def Follows (next : α → Option α) (x y : α) : Prop := next x = some y

theorem follows_rightUnique (next : α → Option α) : Relator.RightUnique (Follows next) := by
  intro x y z hy hz
  exact Option.some_inj.mp (hy.symm.trans hz)

/-- Where the numbers of all links go down, every walk ends. -/
theorem wellFounded_of_down {next : α → Option α} {order : α → Int}
    (h : ∀ x y, next x = some y → 0 ≤ order y ∧ order y < order x) :
    WellFounded fun y x => next x = some y := by
  refine Subrelation.wf (r := fun y x => (order y).toNat < (order x).toNat) ?_
    (measure fun x => (order x).toNat).wf
  intro y x hxy
  have := h x y hxy
  omega

section

variable [DecidableEq α]

/-! ## Walks -/

/-- From `start` over nodes without a number, each marked with 0 as it is passed, to one that has a
number or to the end. `base` is the number found there, -1 at the end. -/
inductive Walk (next : α → Option α) : (α → Int) → Option α → List α → Int → Prop
  | root {order : α → Int} : Walk next order none [] (-1)
  | known {order : α → Int} {x : α} (h : 0 ≤ order x) : Walk next order (some x) [] (order x)
  | step {order : α → Int} {x : α} {xs : List α} {base : Int} (h : order x < 0)
      (w : Walk next (Function.update order x 0) (next x) xs base) :
      Walk next order (some x) (x :: xs) base

/-- The nodes of a walk numbered from its end on. -/
def assign (base : Int) : List α → (α → Int) → α → Int
  | [], order => order
  | x :: xs, order =>
    Function.update (assign base xs (Function.update order x 0)) x (base + xs.length + 1)

variable {next next' : α → Option α} {order : α → Int} {start : Option α} {xs : List α} {base : Int}

theorem assign_of_not_mem {x : α} (h : x ∉ xs) : assign base xs order x = order x := by
  induction xs generalizing order with
  | nil => rfl
  | cons y xs ih =>
    simp only [List.mem_cons, not_or] at h
    rw [assign, Function.update_of_ne h.1, ih h.2, Function.update_of_ne h.1]

theorem assign_getElem (hnodup : xs.Nodup) {i : Nat} (hi : i < xs.length) :
    assign base xs order xs[i] = base + xs.length - i := by
  induction xs generalizing order i with
  | nil => cases hi
  | cons y xs ih =>
    obtain ⟨hy, hxs⟩ := List.nodup_cons.mp hnodup
    cases i with
    | zero =>
      simp only [assign, List.getElem_cons_zero, Function.update_self, List.length_cons]
      push_cast
      omega
    | succ i =>
      have hi' : i < xs.length := by simpa using hi
      have hne : xs[i] ≠ y := fun h => hy (h ▸ List.getElem_mem hi')
      simp only [assign, List.getElem_cons_succ, List.length_cons]
      rw [Function.update_of_ne hne, ih hxs hi']
      push_cast
      omega

/-- A walk looks at the links of nodes without a number only. -/
theorem Walk.congr (w : Walk next order start xs base)
    (h : ∀ x, order x < 0 → next x = next' x) : Walk next' order start xs base := by
  induction w with
  | root => exact .root
  | known hx => exact .known hx
  | @step order x xs base hx _ ih =>
    refine .step hx ?_
    rw [← h x hx]
    refine ih fun y hy => h y ?_
    by_cases hyx : y = x
    · rw [hyx, Function.update_self] at hy
      omega
    · rwa [Function.update_of_ne hyx] at hy

theorem Walk.base_ge (w : Walk next order start xs base) : -1 ≤ base := by
  induction w with
  | root => exact Int.le_refl _
  | known hx => omega
  | step _ _ ih => exact ih

theorem Walk.fresh (w : Walk next order start xs base) {x : α} (hx : x ∈ xs) : order x < 0 := by
  induction w with
  | root => cases hx
  | known => cases hx
  | @step order y xs base hy _ ih =>
    rcases List.mem_cons.mp hx with rfl | hx
    · exact hy
    · have hxy := ih hx
      by_cases h : x = y
      · rw [h, Function.update_self] at hxy
        omega
      · rwa [Function.update_of_ne h] at hxy

theorem Walk.nodup (w : Walk next order start xs base) : xs.Nodup := by
  induction w with
  | root => exact List.nodup_nil
  | known => exact List.nodup_nil
  | @step order x xs base _ w ih =>
    refine List.nodup_cons.mpr ⟨fun hx => ?_, ih⟩
    have := w.fresh hx
    rw [Function.update_self] at this
    omega

theorem Walk.head (w : Walk next order start xs base) (h : xs ≠ []) : start = xs.head? := by
  cases w with
  | root => exact absurd rfl h
  | known => exact absurd rfl h
  | step => rfl

theorem Walk.start_numbered (w : Walk next order start xs base) {x : α} (h : start = some x) :
    x ∈ xs ∨ 0 ≤ order x := by
  cases w with
  | root => cases h
  | known hx =>
    obtain rfl := Option.some_inj.mp h
    exact Or.inr hx
  | step =>
    obtain rfl := Option.some_inj.mp h
    exact Or.inl List.mem_cons_self

theorem Walk.link (w : Walk next order start xs base) {i : Nat} (hi : i + 1 < xs.length) :
    next xs[i] = some xs[i + 1] := by
  induction w generalizing i with
  | root => cases hi
  | known => cases hi
  | @step order x xs base _ w ih =>
    have hi' : i < xs.length := by simpa using hi
    cases i with
    | zero =>
      have hne : xs ≠ [] := List.ne_nil_of_length_pos hi'
      have hhead := w.head hne
      rw [List.head?_eq_getElem?, List.getElem?_eq_getElem hi'] at hhead
      exact hhead
    | succ i => exact ih hi'

/-- How a walk ends: at the end, at a node numbered before, or at a node of its own. -/
theorem Walk.last (w : Walk next order start xs base) {x : α} (hx : xs.getLast? = some x) :
    (next x = none ∧ base = -1) ∨
    (∃ y, next x = some y ∧ y ∉ xs ∧ 0 ≤ order y ∧ base = order y) ∨
    ∃ y ∈ xs, next x = some y ∧ base = 0 := by
  induction w with
  | root => cases hx
  | known => cases hx
  | @step order z xs base hz w ih =>
    cases xs with
    | nil =>
      obtain rfl : z = x := by simpa using hx
      generalize hs : next z = s at w ih ⊢
      cases w with
      | root => exact Or.inl ⟨rfl, rfl⟩
      | @known _ y hy =>
        by_cases hyz : y = z
        · subst hyz
          exact Or.inr (Or.inr ⟨y, by simp, rfl, Function.update_self ..⟩)
        · rw [Function.update_of_ne hyz] at hy ⊢
          exact Or.inr (Or.inl ⟨y, rfl, by simpa using hyz, hy, rfl⟩)
    | cons u us =>
      rw [List.getLast?_cons_cons] at hx
      rcases ih hx with h | ⟨y, hxy, hy, hord, hbase⟩ | ⟨y, hy, hxy, hbase⟩
      · exact Or.inl h
      · by_cases hyz : y = z
        · subst hyz
          rw [Function.update_self] at hbase
          exact Or.inr (Or.inr ⟨y, List.mem_cons_self, hxy, hbase⟩)
        · rw [Function.update_of_ne hyz] at hord hbase
          refine Or.inr (Or.inl ⟨y, hxy, ?_, hord, hbase⟩)
          exact fun h => (List.mem_cons.mp h).elim hyz hy
      · exact Or.inr (Or.inr ⟨y, List.mem_cons_of_mem z hy, hxy, hbase⟩)

/-- Where the links stay in a finite set, there is a walk from everywhere. -/
theorem exists_walk (s : Finset α) (hs : ∀ x y, next x = some y → y ∈ s) (order : α → Int)
    (start : Option α) (hstart : ∀ x, start = some x → x ∈ s) :
    ∃ xs base, Walk next order start xs base := by
  generalize hn : (s.filter fun x => order x < 0).card = n
  induction n generalizing order start with
  | zero =>
    cases start with
    | none => exact ⟨[], -1, .root⟩
    | some x =>
      have hx : 0 ≤ order x := by
        by_contra hlt
        have hmem : x ∈ s.filter fun x => order x < 0 :=
          Finset.mem_filter.mpr ⟨hstart x rfl, by omega⟩
        rw [Finset.card_eq_zero.mp hn] at hmem
        exact Finset.notMem_empty x hmem
      exact ⟨[], order x, .known hx⟩
  | succ n ih =>
    cases start with
    | none => exact ⟨[], -1, .root⟩
    | some x =>
      by_cases hx : 0 ≤ order x
      · exact ⟨[], order x, .known hx⟩
      · have hmem : x ∈ s.filter fun x => order x < 0 :=
          Finset.mem_filter.mpr ⟨hstart x rfl, by omega⟩
        have hrest : (s.filter fun y => Function.update order x 0 y < 0) =
            (s.filter fun y => order y < 0).erase x := by
          ext y
          by_cases hyx : y = x
          · simp [hyx]
          · simp [Function.update_of_ne hyx, hyx]
        have hcard : (s.filter fun y => Function.update order x 0 y < 0).card = n := by
          rw [hrest, Finset.card_erase_of_mem hmem, hn]
          omega
        obtain ⟨xs, base, w⟩ := ih _ (next x) (fun y hy => hs x y hy) hcard
        exact ⟨x :: xs, base, .step (by omega) w⟩

theorem Walk.mem_of_links (w : Walk next order start xs base) {s : Finset α}
    (hs : ∀ x y, next x = some y → y ∈ s) (hstart : ∀ x, start = some x → x ∈ s) {x : α}
    (hx : x ∈ xs) : x ∈ s := by
  induction w with
  | root => cases hx
  | known => cases hx
  | @step order y xs base _ _ ih =>
    rcases List.mem_cons.mp hx with rfl | hx
    · exact hstart x rfl
    · exact ih (fun z hz => hs y z hz) hx

theorem Walk.length_le (w : Walk next order start xs base) {s : Finset α}
    (hs : ∀ x y, next x = some y → y ∈ s) (hstart : ∀ x, start = some x → x ∈ s) :
    xs.length ≤ s.card := by
  rw [← List.toFinset_card_of_nodup w.nodup]
  refine Finset.card_le_card fun x hx => ?_
  exact w.mem_of_links hs hstart (List.mem_toFinset.mp hx)

/-! ## What the numbers say -/

/-- The number of the node is not above that of the next one. -/
def Backs (next : α → Option α) (order : α → Int) (x : α) : Prop :=
  ∃ y, next x = some y ∧ order x ≤ order y

/-- What holds between two walks: a link that does not go down closes a cycle, and is the only one
there. -/
structure Numbered (next : α → Option α) (order : α → Int) : Prop where
  closed : ∀ x y, 0 ≤ order x → next x = some y → 0 ≤ order y
  cycle : ∀ x, 0 ≤ order x → Backs next order x → TransGen (Follows next) x x
  alone : ∀ x y, 0 ≤ order x → Backs next order x → ReflTransGen (Follows next) x y →
    Backs next order y → y = x

theorem Numbered.reach (h : Numbered next order) {x y : α} (hx : 0 ≤ order x)
    (hxy : ReflTransGen (Follows next) x y) : 0 ≤ order y := by
  induction hxy with
  | refl => exact hx
  | tail _ hyz ih => exact h.closed _ _ ih hyz

/-- Numbers that are there already stay. -/
theorem Walk.keeps (w : Walk next order start xs base) {x : α} (hx : 0 ≤ order x) :
    assign base xs order x = order x := by
  refine assign_of_not_mem fun hmem => ?_
  have := w.fresh hmem
  omega

theorem Walk.assign_pos (w : Walk next order start xs base) {x : α} (hx : x ∈ xs) :
    base + 1 ≤ assign base xs order x := by
  obtain ⟨i, hi, rfl⟩ := List.getElem_of_mem hx
  rw [assign_getElem w.nodup hi]
  omega

theorem Walk.numbered_iff (w : Walk next order start xs base) {x : α} :
    0 ≤ assign base xs order x ↔ x ∈ xs ∨ 0 ≤ order x := by
  have hbase := w.base_ge
  constructor
  · intro h
    by_cases hx : x ∈ xs
    · exact Or.inl hx
    · rw [assign_of_not_mem hx] at h
      exact Or.inr h
  · rintro (hx | hx)
    · have := w.assign_pos hx
      omega
    · rw [w.keeps hx]
      exact hx

/-- The value that the start of the walk has got. -/
theorem Walk.start_value (w : Walk next order start xs base) {x : α} (h : start = some x) :
    assign base xs order x = base + xs.length := by
  cases w with
  | root => cases h
  | known =>
    obtain rfl := Option.some_inj.mp h
    simp [assign]
  | step =>
    obtain rfl := Option.some_inj.mp h
    simp only [assign, Function.update_self, List.length_cons]
    push_cast
    omega

/-- The links of a walk: all go down, but for one from the last node back into the walk. -/
theorem Walk.link_cases (h : Numbered next order) (w : Walk next order start xs base) {x y : α}
    (hx : x ∈ xs) (hxy : next x = some y) :
    (0 ≤ assign base xs order y ∧ assign base xs order y < assign base xs order x) ∨
    (y ∈ xs ∧ xs.getLast? = some x) := by
  obtain ⟨i, hi, rfl⟩ := List.getElem_of_mem hx
  by_cases hlast : i + 1 < xs.length
  · rw [w.link hlast] at hxy
    obtain rfl := Option.some_inj.mp hxy
    have hbase := w.base_ge
    rw [assign_getElem w.nodup hi, assign_getElem w.nodup hlast]
    push_cast
    exact Or.inl (by omega)
  · have hget : xs.getLast? = some xs[i] := by
      rw [List.getLast?_eq_getElem?, ← List.getElem?_eq_getElem hi]
      congr 1
      omega
    rcases w.last hget with ⟨hnone, -⟩ | ⟨z, hz, hzxs, hord, hb⟩ | ⟨z, hzxs, hz, -⟩
    · rw [hnone] at hxy
      cases hxy
    · obtain rfl := Option.some_inj.mp (hxy.symm.trans hz)
      have hpos := w.assign_pos hx
      rw [assign_of_not_mem hzxs]
      exact Or.inl (by omega)
    · obtain rfl := Option.some_inj.mp (hxy.symm.trans hz)
      exact Or.inr ⟨hzxs, hget⟩

/-- Every node of a walk leads to the last one. -/
theorem Walk.reach_last (w : Walk next order start xs base) {x y : α} (hx : x ∈ xs)
    (hy : xs.getLast? = some y) : ReflTransGen (Follows next) x y := by
  obtain ⟨i, hi, rfl⟩ := List.getElem_of_mem hx
  have hup : ∀ j, (hj : i + j < xs.length) → ReflTransGen (Follows next) xs[i] xs[i + j] := by
    intro j
    induction j with
    | zero => exact fun _ => .refl
    | succ j ih => exact fun hj => (ih (by omega)).tail (w.link hj)
  rw [List.getLast?_eq_getElem?] at hy
  obtain ⟨hlt, rfl⟩ := List.getElem?_eq_some_iff.mp hy
  have hlast := hup (xs.length - 1 - i) (by omega)
  have hindex : i + (xs.length - 1 - i) = xs.length - 1 := by omega
  simp only [hindex] at hlast
  exact hlast

/-- Nothing leads out of a walk that ends in itself. -/
theorem Walk.stays (w : Walk next order start xs base) {x y z u : α} (hx : xs.getLast? = some x)
    (hxy : next x = some y) (hy : y ∈ xs) (hz : z ∈ xs) (hzu : ReflTransGen (Follows next) z u) :
    u ∈ xs := by
  induction hzu with
  | refl => exact hz
  | @tail u v _ huv ih =>
    obtain ⟨i, hi, rfl⟩ := List.getElem_of_mem ih
    have huv' : next xs[i] = some v := huv
    by_cases hlast : i + 1 < xs.length
    · rw [w.link hlast] at huv'
      obtain rfl := Option.some_inj.mp huv'
      exact List.getElem_mem hlast
    · have hget : xs[i] = x := by
        rw [List.getLast?_eq_getElem?] at hx
        obtain ⟨-, rfl⟩ := List.getElem?_eq_some_iff.mp hx
        congr 1
        omega
      rw [hget, hxy] at huv'
      obtain rfl := Option.some_inj.mp huv'
      exact hy

/-- A walk keeps what holds between two walks. -/
theorem Numbered.walk (h : Numbered next order) (w : Walk next order start xs base) :
    Numbered next (assign base xs order) := by
  -- a link that does not go down is an old one, or the last of a walk into itself
  have hbacks : ∀ x, 0 ≤ assign base xs order x → Backs next (assign base xs order) x →
      (0 ≤ order x ∧ Backs next order x) ∨
      (xs.getLast? = some x ∧ ∃ y ∈ xs, next x = some y) := by
    rintro x hx ⟨y, hxy, hle⟩
    rcases w.numbered_iff.mp hx with hmem | hold
    · rcases w.link_cases h hmem hxy with hdown | ⟨hy, hlast⟩
      · omega
      · exact Or.inr ⟨hlast, y, hy, hxy⟩
    · rw [w.keeps hold, w.keeps (h.closed x y hold hxy)] at hle
      exact Or.inl ⟨hold, y, hxy, hle⟩
  constructor
  · intro x y hx hxy
    rcases w.numbered_iff.mp hx with hmem | hold
    · rcases w.link_cases h hmem hxy with hdown | ⟨hy, -⟩
      · exact hdown.1
      · exact w.numbered_iff.mpr (Or.inl hy)
    · exact w.numbered_iff.mpr (Or.inr (h.closed x y hold hxy))
  · intro x hx hb
    rcases hbacks x hx hb with ⟨hold, hb⟩ | ⟨hlast, y, hy, hxy⟩
    · exact h.cycle x hold hb
    · exact TransGen.head' hxy (w.reach_last hy hlast)
  · intro x y hx hb hreach hby
    rcases hbacks x hx hb with ⟨hold, hb⟩ | ⟨hlast, z, hz, hxz⟩
    · have hy := h.reach hold hreach
      rcases hbacks y (w.numbered_iff.mpr (Or.inr hy)) hby with ⟨-, hby⟩ | ⟨hlast, -⟩
      · exact h.alone x y hold hb hreach hby
      · have := w.fresh (List.mem_of_getLast? hlast)
        omega
    · have hy := w.stays hlast hxz hz (List.mem_of_getLast? hlast) hreach
      rcases hbacks y (w.numbered_iff.mpr (Or.inl hy)) hby with ⟨hold, -⟩ | ⟨hlast', -⟩
      · have := w.fresh hy
        omega
      · exact Option.some_inj.mp (hlast'.symm.trans hlast)

/-- On a cycle of numbered nodes exactly one link does not go down. -/
theorem Numbered.existsUnique (h : Numbered next order) {x : α} (hx : 0 ≤ order x)
    (hcycle : TransGen (Follows next) x x) :
    ∃! y, TransGen (Follows next) x y ∧ Backs next order y := by
  have hex : ∃ y, TransGen (Follows next) x y ∧ Backs next order y := by
    by_contra hno
    have hdown : ∀ y z, TransGen (Follows next) x y → next y = some z → order z < order y := by
      intro y z hxy hyz
      by_contra hle
      exact hno ⟨y, hxy, z, hyz, by omega⟩
    have hall : ∀ y, TransGen (Follows next) x y → order y < order x := by
      intro y hxy
      induction hxy with
      | single hxy => exact hdown _ _ hcycle hxy
      | tail hxy hyz ih =>
        have := hdown _ _ hxy hyz
        omega
    exact Int.lt_irrefl _ (hall x hcycle)
  obtain ⟨y, hxy, hy⟩ := hex
  refine ⟨y, ⟨hxy, hy⟩, ?_⟩
  rintro z ⟨hxz, hz⟩
  have hyn := h.reach hx hxy.to_reflTransGen
  have hzn := h.reach hx hxz.to_reflTransGen
  rcases ReflTransGen.total_of_right_unique (follows_rightUnique next) hxy.to_reflTransGen
    hxz.to_reflTransGen with hyz | hzy
  · exact h.alone y z hyn hy hyz hz
  · exact (h.alone z y hzn hz hzy hy).symm

end

end nehcpu.numbering
