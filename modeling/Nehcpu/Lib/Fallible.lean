-- Steps that may fail, what is to be said of their end, and runs of them. Nothing here knows what the
-- steps do.
import Mathlib.Tactic.Common

namespace nehcpu.fallible

universe u

variable {σ ι τ ε : Type*} {α β : Type u}

/-! ## How a computation ends -/

/-- A result has the property `Q`, and a failure the property `E`. -/
def Ends (Q : α → Prop) (E : ε → Prop) : Except ε α → Prop
  | .ok a => Q a
  | .error e => E e

section

variable {Q : α → Prop} {E : ε → Prop}

@[simp] theorem ends_ok (a : α) : Ends Q E (.ok a) ↔ Q a := Iff.rfl

@[simp] theorem ends_error (e : ε) : Ends Q E (.error e : Except ε α) ↔ E e := Iff.rfl

@[simp] theorem ends_pure (a : α) : Ends Q E (pure a) ↔ Q a := Iff.rfl

@[simp] theorem ends_throw (e : ε) : Ends Q E (throw e : Except ε α) ↔ E e := Iff.rfl

theorem ends_bind (x : Except ε β) (f : β → Except ε α) :
    Ends Q E (x >>= f) ↔ Ends (fun b => Ends Q E (f b)) E x := by
  cases x <;> exact Iff.rfl

theorem ends_ite {p : Prop} [Decidable p] {x y : Except ε α} :
    Ends Q E (if p then x else y) ↔ (p → Ends Q E x) ∧ (¬ p → Ends Q E y) := by
  by_cases hp : p <;> simp [hp]

theorem Ends.mono {Q' : α → Prop} {E' : ε → Prop} {x : Except ε α} (h : Ends Q E x)
    (hQ : ∀ a, Q a → Q' a) (hE : ∀ e, E e → E' e) : Ends Q' E' x := by
  cases x with
  | ok a => exact hQ a h
  | error e => exact hE e h

theorem Ends.ok {x : Except ε α} (h : Ends Q E x) {a : α} (hx : x = .ok a) : Q a := by
  rw [hx] at h
  exact h

theorem Ends.error {x : Except ε α} (h : Ends Q E x) {e : ε} (hx : x = .error e) : E e := by
  rw [hx] at h
  exact h

end

/-! ## Runs -/

/-- The steps of a list, the first one first, up to one that fails. -/
def runSteps (step : σ → ι → Except ε σ) : σ → List ι → Except ε σ
  | s, [] => .ok s
  | s, i :: is => step s i >>= fun s => runSteps step s is

/-- Each step that the run comes to is allowed there. -/
def AllAllowed (step : σ → ι → Except ε σ) (A : σ → ι → Prop) : σ → List ι → Prop
  | _, [] => True
  | s, i :: is => A s i ∧ Ends (fun s => AllAllowed step A s is) (fun _ => True) (step s i)

instance decidableEnds (Q : α → Prop) (E : ε → Prop) [DecidablePred Q] [DecidablePred E] :
    (x : Except ε α) → Decidable (Ends Q E x)
  | .ok a => inferInstanceAs (Decidable (Q a))
  | .error e => inferInstanceAs (Decidable (E e))

instance decidableAllAllowed (step : σ → ι → Except ε σ) (A : σ → ι → Prop)
    [∀ s i, Decidable (A s i)] : (s : σ) → (is : List ι) → Decidable (AllAllowed step A s is)
  | _, [] => isTrue trivial
  | s, i :: is =>
    have : DecidablePred fun s => AllAllowed step A s is :=
      fun s => decidableAllAllowed step A s is
    inferInstanceAs (Decidable (A s i ∧ Ends _ (fun _ => True) (step s i)))

theorem allAllowed_append {step : σ → ι → Except ε σ} {A : σ → ι → Prop} {s s' : σ} {is js : List ι}
    (hA : AllAllowed step A s (is ++ js)) (h : runSteps step s is = .ok s') :
    AllAllowed step A s is ∧ AllAllowed step A s' js := by
  induction is generalizing s with
  | nil =>
    obtain rfl := Except.ok.inj h
    exact ⟨trivial, hA⟩
  | cons i is ih =>
    obtain ⟨hi, hA⟩ := hA
    change step s i >>= _ = _ at h
    show (A s i ∧ Ends (fun s => AllAllowed step A s is) (fun _ => True) (step s i)) ∧ _
    cases hx : step s i with
    | ok t =>
      rw [hx] at hA h
      obtain ⟨h1, h2⟩ := ih hA h
      exact ⟨⟨hi, h1⟩, h2⟩
    | error e =>
      rw [hx] at h
      cases h

/-- What is known after a run, where each step tells more. -/
def history (step : σ → ι → Except ε σ) (know : τ → σ → ι → τ) : τ → σ → List ι → τ
  | t, _, [] => t
  | t, s, i :: is =>
    match step s i with
    | .ok s' => history step know (know t s i) s' is
    | .error _ => t

/-- A relation to what is known, that every allowed step keeps, holds after every allowed run. -/
theorem ends_run {step : σ → ι → Except ε σ} {A : σ → ι → Prop} {know : τ → σ → ι → τ}
    {Inv : τ → σ → Prop} {E : ε → Prop}
    (hstep : ∀ t s i, Inv t s → A s i → Ends (Inv (know t s i)) E (step s i)) {t : τ} {s : σ}
    {is : List ι} (h0 : Inv t s) (hA : AllAllowed step A s is) :
    Ends (Inv (history step know t s is)) E (runSteps step s is) := by
  induction is generalizing s t with
  | nil => exact h0
  | cons i is ih =>
    have hs := hstep t s i h0 hA.1
    have ha := hA.2
    unfold history
    show Ends _ _ (step s i >>= fun s => runSteps step s is)
    cases hx : step s i with
    | ok s' =>
      rw [hx] at hs ha
      exact ih hs ha
    | error e =>
      rw [hx] at hs
      exact hs

end nehcpu.fallible
