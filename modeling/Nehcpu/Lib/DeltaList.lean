-- Lists of deadlines that are stored as gaps: each entry has the time from the one before it. Nothing
-- here knows what the entries stand for.
import Mathlib.Data.List.Nodup
import Mathlib.Algebra.Ring.Nat

namespace nehcpu.delta

variable {κ : Type*}

/-- An entry with the time from the entry before it. -/
structure Entry (κ : Type*) where
  key : κ
  gap : Nat

/-- The entries with their times from now on, where the list starts at `base`. -/
def timesFrom : Nat → List (Entry κ) → List (κ × Nat)
  | _, [] => []
  | base, e :: es => (e.key, base + e.gap) :: timesFrom (base + e.gap) es

def times (es : List (Entry κ)) : List (κ × Nat) := timesFrom 0 es

@[simp] theorem timesFrom_nil (base : Nat) : timesFrom base ([] : List (Entry κ)) = [] := rfl

@[simp] theorem timesFrom_cons (base : Nat) (e : Entry κ) (es : List (Entry κ)) :
    timesFrom base (e :: es) = (e.key, base + e.gap) :: timesFrom (base + e.gap) es := rfl

theorem timesFrom_append (base : Nat) (es fs : List (Entry κ)) :
    timesFrom base (es ++ fs) = timesFrom base es ++ timesFrom (base + (es.map (·.gap)).sum) fs := by
  induction es generalizing base with
  | nil => simp
  | cons e es ih => simp [ih, Nat.add_assoc]

theorem map_fst_timesFrom (base : Nat) (es : List (Entry κ)) :
    (timesFrom base es).map Prod.fst = es.map (·.key) := by
  induction es generalizing base with
  | nil => rfl
  | cons e es ih => simp [ih]

theorem le_of_mem_timesFrom {base t : Nat} {k : κ} {es : List (Entry κ)}
    (h : (k, t) ∈ timesFrom base es) : base ≤ t := by
  induction es generalizing base with
  | nil => simp at h
  | cons e es ih =>
    simp only [timesFrom_cons, List.mem_cons, Prod.mk.injEq] at h
    rcases h with ⟨-, rfl⟩ | h
    · exact Nat.le_add_right base e.gap
    · exact Nat.le_trans (Nat.le_add_right base e.gap) (ih h)

/-- A later base moves all times by the difference. -/
theorem timesFrom_add (base n : Nat) (es : List (Entry κ)) :
    timesFrom (base + n) es = (timesFrom base es).map fun x => (x.1, x.2 + n) := by
  induction es generalizing base with
  | nil => rfl
  | cons e es ih =>
    have hb : base + n + e.gap = base + e.gap + n := by omega
    simp [hb, ih]

/-! ## A new entry -/

/-- The walk to the place of a new entry, which takes its gap from the entry that follows. -/
def insert (new : Entry κ) : List (Entry κ) → List (Entry κ)
  | [] => [new]
  | e :: es =>
    if new.gap < e.gap then new :: { e with gap := e.gap - new.gap } :: es
    else e :: insert { new with gap := new.gap - e.gap } es

theorem timesFrom_insert (base : Nat) (new : Entry κ) (es : List (Entry κ)) :
    (timesFrom base (insert new es)).Perm ((new.key, base + new.gap) :: timesFrom base es) := by
  induction es generalizing base new with
  | nil => simp [insert]
  | cons e es ih =>
    unfold insert
    split
    · next h =>
      have hgap : base + new.gap + (e.gap - new.gap) = base + e.gap := by omega
      simp [hgap]
    · next h =>
      have hgap : base + e.gap + (new.gap - e.gap) = base + new.gap := by omega
      have hp := ih (base + e.gap) { new with gap := new.gap - e.gap }
      rw [hgap] at hp
      exact (hp.cons _).trans (List.Perm.swap _ _ _)

theorem head_insert {new : Entry κ} {es : List (Entry κ)} (hn : 0 < new.gap)
    (h : ∀ e ∈ es.head?, 0 < e.gap) : ∀ e ∈ (insert new es).head?, 0 < e.gap := by
  cases es with
  | nil => simpa [insert] using hn
  | cons e es =>
    unfold insert
    split
    · simpa using hn
    · simpa using h

/-! ## An entry goes -/

/-- The first entry takes up the gap of one before it. -/
def push (n : Nat) : List (Entry κ) → List (Entry κ)
  | [] => []
  | e :: es => { e with gap := e.gap + n } :: es

theorem timesFrom_push (base n : Nat) (es : List (Entry κ)) :
    timesFrom base (push n es) = timesFrom (base + n) es := by
  cases es with
  | nil => rfl
  | cons e es =>
    have hb : base + (e.gap + n) = base + n + e.gap := by omega
    simp [push, hb]

theorem mem_push {n : Nat} {e : Entry κ} {es : List (Entry κ)} (h : e ∈ push n es) :
    e.key ∈ es.map (·.key) := by
  cases es with
  | nil => simp [push] at h
  | cons f es =>
    simp only [push, List.mem_cons] at h
    rcases h with rfl | h
    · simp
    · simp only [List.map_cons, List.mem_cons]
      exact Or.inr (List.mem_map_of_mem h)

/-- An entry is taken out, and what follows keeps its time. -/
def erase [DecidableEq κ] (k : κ) : List (Entry κ) → List (Entry κ)
  | [] => []
  | e :: es => if e.key = k then push e.gap es else e :: erase k es

theorem timesFrom_erase [DecidableEq κ] (base : Nat) (k : κ) {es : List (Entry κ)}
    (h : (es.map (·.key)).Nodup) :
    timesFrom base (erase k es) = (timesFrom base es).filter fun x => x.1 ≠ k := by
  induction es generalizing base with
  | nil => rfl
  | cons e es ih =>
    simp only [List.map_cons, List.nodup_cons] at h
    unfold erase
    split
    · next he =>
      rw [timesFrom_push, timesFrom_cons, List.filter_cons_of_neg (by simp [he])]
      symm
      apply List.filter_eq_self.2
      intro x hx
      have hmem : x.1 ∈ es.map (·.key) := by
        rw [← map_fst_timesFrom (base + e.gap)]
        exact List.mem_map_of_mem hx
      simp only [decide_eq_true_eq]
      rintro rfl
      exact h.1 (he ▸ hmem)
    · next he =>
      rw [timesFrom_cons, timesFrom_cons, List.filter_cons_of_pos (by simp [he]), ih _ h.2]

theorem head_erase [DecidableEq κ] {k : κ} {es : List (Entry κ)}
    (h : ∀ e ∈ es.head?, 0 < e.gap) : ∀ e ∈ (erase k es).head?, 0 < e.gap := by
  cases es with
  | nil => simp [erase]
  | cons e es =>
    have he : 0 < e.gap := by simpa using h
    unfold erase
    split
    · cases es with
      | nil => simp [push]
      | cons f es =>
        simp only [push, List.head?_cons, Option.mem_some_iff, forall_eq']
        omega
    · simpa using h

/-! ## A step of the time -/

/-- The run of entries at the head whose time has come. -/
def dueRun : List (Entry κ) → List (Entry κ) := List.takeWhile (·.gap == 0)

/-- What is left when they go. -/
def rest : List (Entry κ) → List (Entry κ) := List.dropWhile (·.gap == 0)

/-- One unit of time is over. -/
def step : List (Entry κ) → List (Entry κ)
  | [] => []
  | e :: es => { e with gap := e.gap - 1 } :: es

theorem timesFrom_step {es : List (Entry κ)} (h : ∀ e ∈ es.head?, 0 < e.gap) :
    times es = (times (step es)).map fun x => (x.1, x.2 + 1) := by
  cases es with
  | nil => rfl
  | cons e es =>
    have he : 0 < e.gap := by simpa using h
    have hgap : e.gap - 1 + 1 = e.gap := by omega
    have ht := timesFrom_add (e.gap - 1) 1 es
    rw [hgap] at ht
    simp [times, step, hgap, ht]

theorem times_due (es : List (Entry κ)) :
    (dueRun es).map (·.key) = ((times es).filter fun x => x.2 = 0).map Prod.fst := by
  unfold times dueRun
  induction es with
  | nil => rfl
  | cons e es ih =>
    rw [timesFrom_cons, Nat.zero_add]
    by_cases he : e.gap = 0
    · rw [List.takeWhile_cons_of_pos (by simp [he]), List.filter_cons_of_pos (by simp [he]), he]
      simp [ih]
    · rw [List.takeWhile_cons_of_neg (by simp [he]), List.filter_cons_of_neg (by simp [he])]
      symm
      rw [List.map_nil, List.map_eq_nil_iff, List.filter_eq_nil_iff]
      intro x hx
      have hle := le_of_mem_timesFrom hx
      simp only [decide_eq_true_eq]
      omega

theorem times_rest (es : List (Entry κ)) :
    times (rest es) = (times es).filter fun x => x.2 ≠ 0 := by
  unfold times rest
  induction es with
  | nil => rfl
  | cons e es ih =>
    rw [timesFrom_cons, Nat.zero_add]
    by_cases he : e.gap = 0
    · rw [List.dropWhile_cons_of_pos (by simp [he]), List.filter_cons_of_neg (by simp [he]), he]
      exact ih
    · rw [List.dropWhile_cons_of_neg (by simp [he]), List.filter_cons_of_pos (by simp [he]),
        timesFrom_cons, Nat.zero_add]
      congr 1
      symm
      apply List.filter_eq_self.2
      intro x hx
      have hle := le_of_mem_timesFrom hx
      simp only [decide_eq_true_eq]
      omega

theorem head_rest (es : List (Entry κ)) : ∀ e ∈ (rest es).head?, 0 < e.gap := by
  intro e he
  unfold rest at he
  induction es with
  | nil => simp at he
  | cons f es ih =>
    by_cases hf : f.gap = 0
    · rw [List.dropWhile_cons_of_pos (by simp [hf])] at he
      exact ih he
    · rw [List.dropWhile_cons_of_neg (by simp [hf])] at he
      simp only [List.head?_cons, Option.mem_some_iff] at he
      rw [← he]
      exact Nat.pos_of_ne_zero hf

end nehcpu.delta
