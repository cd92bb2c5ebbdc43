-- Machines that take one input each step, the runs of such a machine and the
-- logs that a run leaves. Nothing here knows what the machine is.
import Mathlib.Tactic.Common

namespace nehcpu.machine

variable {σ ι ο : Type*}

/-! ## Runs -/

/-- The state after a list of inputs, the oldest first. -/
def runFrom (step : σ → ι → σ) (s : σ) (is : List ι) : σ := is.foldl step s

/-- Each step of the run meets the condition. -/
def StepsMeet (step : σ → ι → σ) (C : σ → ι → Prop) : σ → List ι → Prop
  | _, [] => True
  | s, i :: is => C s i ∧ StepsMeet step C (step s i) is

instance StepsMeet.decidable (step : σ → ι → σ) (C : σ → ι → Prop) [∀ s i, Decidable (C s i)] :
    ∀ s is, Decidable (StepsMeet step C s is)
  | _, [] => isTrue trivial
  | s, i :: is => @instDecidableAnd _ _ _ (StepsMeet.decidable step C (step s i) is)

/-- What the machine puts out over a run, the oldest first. -/
def logFrom (step : σ → ι → σ) (out : σ → ι → List ο) : σ → List ι → List ο
  | _, [] => []
  | s, i :: is => out s i ++ logFrom step out (step s i) is

section

variable (step : σ → ι → σ) (s : σ)

@[simp] theorem runFrom_nil : runFrom step s [] = s := rfl

@[simp] theorem runFrom_cons (i : ι) (is : List ι) :
    runFrom step s (i :: is) = runFrom step (step s i) is := rfl

theorem runFrom_append (is js : List ι) :
    runFrom step s (is ++ js) = runFrom step (runFrom step s is) js := by
  simp [runFrom]

theorem runFrom_snoc (is : List ι) (i : ι) :
    runFrom step s (is ++ [i]) = step (runFrom step s is) i := by
  simp [runFrom]

theorem stepsMeet_append (C : σ → ι → Prop) (is js : List ι) :
    StepsMeet step C s (is ++ js) ↔
      StepsMeet step C s is ∧ StepsMeet step C (runFrom step s is) js := by
  induction is generalizing s with
  | nil => simp [StepsMeet]
  | cons i is ih => simp [StepsMeet, ih, and_assoc]

theorem logFrom_append (out : σ → ι → List ο) (is js : List ι) :
    logFrom step out s (is ++ js) =
      logFrom step out s is ++ logFrom step out (runFrom step s is) js := by
  induction is generalizing s with
  | nil => simp [logFrom]
  | cons i is ih => simp [logFrom, ih]

end

/-! ## Invariants -/

/-- A property that every step under the condition keeps holds after every run whose
steps meet the condition. -/
theorem invariant_of_run {step : σ → ι → σ} {Inv : σ → Prop} {C : σ → ι → Prop}
    (hstep : ∀ s i, Inv s → C s i → Inv (step s i)) {s : σ} {is : List ι}
    (h0 : Inv s) (hC : StepsMeet step C s is) : Inv (runFrom step s is) := by
  induction is generalizing s with
  | nil => exact h0
  | cons i is ih => exact ih (hstep s i h0 hC.1) hC.2

/-- The same rule where the property is about the inputs so far too, as something keeps account of
them. -/
theorem account_of_run {τ : Type*} {step : σ → ι → σ} {C : σ → ι → Prop} {know : τ → ι → τ}
    {Inv : τ → σ → Prop} (hstep : ∀ t s i, Inv t s → C s i → Inv (know t i) (step s i)) {t : τ}
    {s : σ} {is : List ι} (h0 : Inv t s) (hC : StepsMeet step C s is) :
    Inv (is.foldl know t) (runFrom step s is) := by
  induction is generalizing t s with
  | nil => exact h0
  | cons i is ih => exact ih (hstep t s i h0 hC.1) hC.2

/-- The same rule when no step has a condition. -/
theorem invariant_of_anyRun {step : σ → ι → σ} {Inv : σ → Prop}
    (hstep : ∀ s i, Inv s → Inv (step s i)) {s : σ} (is : List ι) (h0 : Inv s) :
    Inv (runFrom step s is) := by
  induction is generalizing s with
  | nil => exact h0
  | cons i is ih => exact ih (hstep s i h0)

/-- The rule for a machine that may refuse an input. -/
theorem invariant_of_partialRun {step : σ → ι → Option σ} {Inv : σ → Prop}
    (hstep : ∀ s i s', Inv s → step s i = some s' → Inv s') {s s' : σ} {is : List ι} (h0 : Inv s)
    (h : is.foldlM step s = some s') : Inv s' := by
  induction is generalizing s with
  | nil =>
    obtain rfl : s = s' := Option.some_inj.1 h
    exact h0
  | cons i is ih =>
    rw [List.foldlM_cons] at h
    obtain ⟨s1, hs, hr⟩ := Option.bind_eq_some_iff.1 h
    exact ih (hstep s i s1 h0 hs) hr

/-- Two conditions that an invariant makes equal hold of the same runs. -/
theorem stepsMeet_congr {step : σ → ι → σ} {Inv : σ → Prop} {C C' : σ → ι → Prop}
    (hstep : ∀ s i, Inv s → Inv (step s i)) (hC : ∀ s i, Inv s → (C s i ↔ C' s i)) {s : σ}
    (is : List ι) (h0 : Inv s) : StepsMeet step C s is ↔ StepsMeet step C' s is := by
  induction is generalizing s with
  | nil => exact Iff.rfl
  | cons i is ih => exact and_congr (hC s i h0) (ih (hstep s i h0))

/-- Two logs are equal when the machine puts out the same on every step that an
invariant and the condition allow. -/
theorem logs_agree {step : σ → ι → σ} {Inv : σ → Prop} {C : σ → ι → Prop}
    {out out' : σ → ι → List ο} (hstep : ∀ s i, Inv s → C s i → Inv (step s i))
    (hout : ∀ s i, Inv s → C s i → out s i = out' s i) {s : σ} {is : List ι}
    (h0 : Inv s) (hC : StepsMeet step C s is) :
    logFrom step out s is = logFrom step out' s is := by
  induction is generalizing s with
  | nil => rfl
  | cons i is ih =>
    simp only [logFrom]
    rw [hout s i h0 hC.1, ih (hstep s i h0 hC.1) hC.2]

/-- A relation between two logs and the state that every step under the condition keeps. -/
theorem logs_related {step : σ → ι → σ} {C : σ → ι → Prop} {out out' : σ → ι → List ο}
    {Inv : List ο → List ο → σ → Prop}
    (hstep : ∀ l l' s i, Inv l l' s → C s i → Inv (l ++ out s i) (l' ++ out' s i) (step s i))
    {l l' : List ο} {s : σ} {is : List ι} (h0 : Inv l l' s) (hC : StepsMeet step C s is) :
    Inv (l ++ logFrom step out s is) (l' ++ logFrom step out' s is) (runFrom step s is) := by
  induction is generalizing l l' s with
  | nil => simpa [logFrom] using h0
  | cons i is ih =>
    have hi := ih (hstep l l' s i h0 hC.1) hC.2
    rw [List.append_assoc, List.append_assoc] at hi
    exact hi

theorem stepsMeet_true (step : σ → ι → σ) (s : σ) (is : List ι) :
    StepsMeet step (fun _ _ => True) s is := by
  induction is generalizing s with
  | nil => trivial
  | cons i is ih => exact ⟨trivial, ih _⟩

/-- The same rule when no step has a condition. -/
theorem logs_related_anyRun {step : σ → ι → σ} {out out' : σ → ι → List ο}
    {Inv : List ο → List ο → σ → Prop}
    (hstep : ∀ l l' s i, Inv l l' s → Inv (l ++ out s i) (l' ++ out' s i) (step s i)) {s : σ}
    (is : List ι) (h0 : Inv [] [] s) :
    Inv (logFrom step out s is) (logFrom step out' s is) (runFrom step s is) :=
  logs_related (fun l l' s i h _ => hstep l l' s i h) h0 (stepsMeet_true step s is)

end nehcpu.machine
