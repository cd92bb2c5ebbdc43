-- Two machines that leave the same trail. Each goes on by itself, some of its steps leave
-- nothing, and a relation with a rank says how the silent steps of the first run out.
import Mathlib.Logic.Relation
import Mathlib.Tactic.Common

namespace nehcpu.simulation

variable {σ τ ε : Type*}

/-- Some number of steps. -/
def Reaches (step : σ → Option σ) : σ → σ → Prop :=
  Relation.ReflTransGen fun s s' => step s = some s'

/-- The trail is what some state of the run shows. -/
def Visits (step : σ → Option σ) (trail : σ → List ε) (s : σ) (es : List ε) : Prop :=
  ∃ s', Reaches step s s' ∧ trail s' = es

variable {f : σ → Option σ} {g : τ → Option τ}

theorem Reaches.refl (s : σ) : Reaches f s s := Relation.ReflTransGen.refl

theorem Reaches.head {s s' s'' : σ} (h : f s = some s') (h' : Reaches f s' s'') :
    Reaches f s s'' :=
  Relation.ReflTransGen.head h h'

theorem Reaches.single {s s' : σ} (h : f s = some s') : Reaches f s s' :=
  Reaches.head h (Reaches.refl s')

theorem Reaches.trans {s s' s'' : σ} (h : Reaches f s s') (h' : Reaches f s' s'') :
    Reaches f s s'' :=
  Relation.ReflTransGen.trans h h'

/-- A property that every step keeps holds in every state reached. -/
theorem Reaches.invariant {Inv : σ → Prop} (hstep : ∀ s s', Inv s → f s = some s' → Inv s')
    {s s' : σ} (h : Reaches f s s') (h0 : Inv s) : Inv s' := by
  induction h with
  | refl => exact h0
  | tail _ h1 ih => exact hstep _ _ ih h1

/-- A run that stops has one end. -/
theorem Reaches.unique {s s' s'' : σ} (h : Reaches f s s') (h' : Reaches f s s'')
    (hs : f s' = none) (hs' : f s'' = none) : s' = s'' := by
  induction h using Relation.ReflTransGen.head_induction_on with
  | refl =>
    rcases Relation.ReflTransGen.cases_head h' with he | ⟨t, ht, -⟩
    · exact he
    · rw [hs] at ht
      cases ht
  | head h1 _ ih =>
    rcases Relation.ReflTransGen.cases_head h' with he | ⟨t, ht, hr⟩
    · rw [← he, h1] at hs'
      cases hs'
    · rw [h1, Option.some.injEq] at ht
      exact ih (ht ▸ hr)

/-- Each step of the first machine is a step of the second one, or leaves the second where it
is and lowers the rank. The second stops where the first does. -/
structure Simulates (f : σ → Option σ) (g : τ → Option τ) (trail : σ → List ε)
    (trail' : τ → List ε) (R : Nat → σ → τ → Prop) : Prop where
  same : ∀ {m s t}, R m s t → trail s = trail' t
  halts : ∀ {m s t}, R m s t → f s = none → g t = none
  step : ∀ {m s t s'}, R m s t → f s = some s' →
    (∃ m', m' < m ∧ R m' s' t) ∨ ∃ t' m', g t = some t' ∧ R m' s' t'

section

variable {trail : σ → List ε} {trail' : τ → List ε} {R : Nat → σ → τ → Prop}

/-- The second machine follows every run of the first. -/
theorem Simulates.forward (h : Simulates f g trail trail' R) {m : Nat} {s s' : σ} {t : τ}
    (hR : R m s t) (hs : Reaches f s s') : ∃ t' m', Reaches g t t' ∧ R m' s' t' := by
  induction hs with
  | refl => exact ⟨t, m, Reaches.refl t, hR⟩
  | tail _ h1 ih =>
    obtain ⟨t1, m1, hr, hR1⟩ := ih
    obtain ⟨m2, -, hR2⟩ | ⟨t2, m2, hg, hR2⟩ := h.step hR1 h1
    · exact ⟨t1, m2, hr, hR2⟩
    · exact ⟨t2, m2, hr.trans (Reaches.single hg), hR2⟩

/-- The first machine catches up with one step of the second: the rank bounds the silent
steps that stand before it. -/
theorem Simulates.catchUp (h : Simulates f g trail trail' R) {m : Nat} {s : σ} {t t' : τ}
    (hR : R m s t) (hg : g t = some t') : ∃ s' m', Reaches f s s' ∧ R m' s' t' := by
  induction m using Nat.strongRecOn generalizing s with
  | ind m ih =>
    cases hf : f s with
    | none => rw [h.halts hR hf] at hg; cases hg
    | some s1 =>
      obtain ⟨m1, hlt, hR1⟩ | ⟨t1, m1, hg1, hR1⟩ := h.step hR hf
      · obtain ⟨s', m', hr, hR'⟩ := ih m1 hlt hR1
        exact ⟨s', m', Reaches.head hf hr, hR'⟩
      · obtain rfl : t1 = t' := Option.some_inj.1 (hg1.symm.trans hg)
        exact ⟨s1, m1, Reaches.single hf, hR1⟩

theorem Simulates.backward (h : Simulates f g trail trail' R) {m : Nat} {s : σ} {t t' : τ}
    (hR : R m s t) (ht : Reaches g t t') : ∃ s' m', Reaches f s s' ∧ R m' s' t' := by
  induction ht with
  | refl => exact ⟨s, m, Reaches.refl s, hR⟩
  | tail _ h1 ih =>
    obtain ⟨s1, m1, hr, hR1⟩ := ih
    obtain ⟨s2, m2, hr2, hR2⟩ := h.catchUp hR1 h1
    exact ⟨s2, m2, hr.trans hr2, hR2⟩

/-- Related states leave the same trails. -/
theorem Simulates.visits_iff (h : Simulates f g trail trail' R) {m : Nat} {s : σ} {t : τ}
    (hR : R m s t) (es : List ε) : Visits f trail s es ↔ Visits g trail' t es := by
  constructor
  · rintro ⟨s', hs, rfl⟩
    obtain ⟨t', m', ht, hR'⟩ := h.forward hR hs
    exact ⟨t', ht, (h.same hR').symm⟩
  · rintro ⟨t', ht, rfl⟩
    obtain ⟨s', m', hs, hR'⟩ := h.backward hR ht
    exact ⟨s', hs, h.same hR'⟩

end

end nehcpu.simulation
