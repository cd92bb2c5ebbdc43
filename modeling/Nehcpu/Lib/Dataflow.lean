-- Backward data flow: what some path still reaches, and the loop that goes on while something
-- changes. Nothing here knows what flows.
import Mathlib.Logic.Relation
import Mathlib.Tactic.Common

namespace nehcpu.dataflow

variable {σ : Type*}

/-! ## Paths -/

/-- Some path from the state reaches the goal, and every state on the way to it lets pass. -/
def Until (step : σ → σ → Prop) (goal pass : σ → Prop) (s : σ) : Prop :=
  ∃ s', Relation.ReflTransGen (fun a b => pass a ∧ step a b) s s' ∧ goal s'

section

variable {step : σ → σ → Prop} {goal pass : σ → Prop} {s s' : σ}

theorem Until.here (h : goal s) : Until step goal pass s := ⟨s, .refl, h⟩

theorem Until.on (hp : pass s) (hs : step s s') (h : Until step goal pass s') :
    Until step goal pass s := by
  obtain ⟨e, hr, hg⟩ := h
  exact ⟨e, .head ⟨hp, hs⟩ hr, hg⟩

/-- A labelling that holds at the goal, and that a step brings back from a state to the one
before it, holds wherever a path begins. -/
theorem Until.label {L : σ → Prop} (hgoal : ∀ s, goal s → L s)
    (hback : ∀ s s', pass s → step s s' → L s' → L s) (h : Until step goal pass s) : L s := by
  obtain ⟨e, hr, hg⟩ := h
  induction hr using Relation.ReflTransGen.head_induction_on with
  | refl => exact hgoal _ hg
  | head h1 _ ih => exact hback _ _ h1.1 h1.2 ih

end

/-! ## The loop -/

/-- `do turn while (changed)`. The fuel bounds the turns. -/
def loopWhile (turn : σ → Option (σ × Bool)) : Nat → σ → Option σ
  | 0, _ => none
  | fuel + 1, s =>
    match turn s with
    | none => none
    | some (s', true) => loopWhile turn fuel s'
    | some (s', false) => some s'

/-- A loop whose turns never fail stops when every change makes a bounded size grow. Its last
turn changed nothing. -/
theorem loopWhile_stops {turn : σ → Option (σ × Bool)} {Inv : σ → Prop} {size : σ → Nat}
    {bound : Nat} (hturn : ∀ s, Inv s → ∃ s' changed, turn s = some (s', changed) ∧ Inv s' ∧
      (changed = true → size s < size s')) (hbound : ∀ s, Inv s → size s ≤ bound) {s : σ}
    (h0 : Inv s) : ∃ last s', Inv last ∧ turn last = some (s', false) ∧
      ∀ fuel, bound < fuel + size s → loopWhile turn fuel s = some s' := by
  obtain ⟨k, hk⟩ : ∃ k, bound - size s = k := ⟨_, rfl⟩
  induction k using Nat.strongRecOn generalizing s with
  | ind k ih =>
    obtain ⟨s', changed, ht, h1, hgrow⟩ := hturn s h0
    have hb := hbound s h0
    have hfuel : ∀ fuel, bound < fuel + size s → ∃ n, fuel = n + 1 := by
      intro fuel hf
      exact ⟨fuel - 1, by omega⟩
    cases changed with
    | false =>
      refine ⟨s, s', h0, ht, ?_⟩
      intro fuel hf
      obtain ⟨n, rfl⟩ := hfuel fuel hf
      simp [loopWhile, ht]
    | true =>
      have hlt := hgrow rfl
      have hb' := hbound s' h1
      obtain ⟨last, e, hl, hte, hrun⟩ := ih (bound - size s') (by omega) h1 rfl
      refine ⟨last, e, hl, hte, ?_⟩
      intro fuel hf
      obtain ⟨n, rfl⟩ := hfuel fuel hf
      simp only [loopWhile, ht]
      exact hrun n (by omega)

end nehcpu.dataflow
