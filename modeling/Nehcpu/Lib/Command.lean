-- Commands over a state that return, fail with a code or stop the machine, and the rules of their
-- weakest preconditions. Nothing here knows what the state or the codes are.
import Mathlib.Tactic.Common

namespace nehcpu.command

variable {σ ε α β : Type}

/-- A failed command leaves the state that it came to. A stopped machine leaves none. -/
inductive Outcome (σ ε α : Type) where
  | ok (a : α) (s : σ)
  | fail (e : ε) (s : σ)
  | stop

/-- The command has returned, with the property. -/
def Outcome.Returns (P : α → σ → Prop) : Outcome σ ε α → Prop
  | .ok a t => P a t
  | _ => False

instance Outcome.decidableReturns (P : α → σ → Prop) [∀ a t, Decidable (P a t)] :
    (x : Outcome σ ε α) → Decidable (x.Returns P)
  | .ok a t => inferInstanceAs (Decidable (P a t))
  | .fail _ _ => isFalse id
  | .stop => isFalse id

theorem Outcome.Returns.ok {P : α → σ → Prop} {x : Outcome σ ε α} (h : x.Returns P) :
    ∃ a t, x = .ok a t ∧ P a t := by
  cases x with
  | ok a t => exact ⟨a, t, rfl, h⟩
  | fail e t => exact h.elim
  | stop => exact h.elim

def Cmd (σ ε α : Type) := σ → Outcome σ ε α

namespace Cmd

/-! ## The commands -/

def ret (a : α) : Cmd σ ε α := fun s => .ok a s

def seq (c : Cmd σ ε α) (f : α → Cmd σ ε β) : Cmd σ ε β := fun s =>
  match c s with
  | .ok a t => f a t
  | .fail e t => .fail e t
  | .stop => .stop

instance : Monad (Cmd σ ε) where
  pure := ret
  bind := seq

def get : Cmd σ ε σ := fun s => .ok s s

def modify (f : σ → σ) : Cmd σ ε Unit := fun s => .ok () (f s)

def throw (e : ε) : Cmd σ ε α := fun s => .fail e s

def halt : Cmd σ ε α := fun _ => .stop

def check (p : Prop) [Decidable p] : Cmd σ ε Unit := fun s => if p then .ok () s else .stop

/-- Where `c` fails, `h` runs and the failure goes on. -/
def onFail (c : Cmd σ ε α) (h : Cmd σ ε Unit) : Cmd σ ε α := fun s =>
  match c s with
  | .ok a t => .ok a t
  | .fail e t =>
    match h t with
    | .ok _ u => .fail e u
    | .fail e' u => .fail e' u
    | .stop => .stop
  | .stop => .stop

/-- A failure becomes a value. -/
def attempt (c : Cmd σ ε α) : Cmd σ ε (Except ε α) := fun s =>
  match c s with
  | .ok a t => .ok (.ok a) t
  | .fail e t => .ok (.error e) t
  | .stop => .stop

/-- A counter goes up from `i` for `n` rounds. -/
def countUp (body : Nat → Cmd σ ε Unit) (i : Nat) : Nat → Cmd σ ε Unit
  | 0 => ret ()
  | n + 1 => seq (body i) fun _ => countUp body (i + 1) n

/-- A loop over a list. -/
def each (body : α → Cmd σ ε Unit) : List α → Cmd σ ε Unit
  | [] => ret ()
  | a :: as => seq (body a) fun _ => each body as

/-! ## The weakest precondition -/

/-- `c` ends in `Q` where it returns, in `E` where it fails, and stops only if `X`. -/
def Wp (c : Cmd σ ε α) (Q : α → σ → Prop) (E : ε → σ → Prop) (X : Prop) (s : σ) : Prop :=
  match c s with
  | .ok a t => Q a t
  | .fail e t => E e t
  | .stop => X

variable {Q Q' : α → σ → Prop} {E E' : ε → σ → Prop} {X X' : Prop} {s : σ}

theorem Wp.mono {c : Cmd σ ε α} (h : Wp c Q E X s) (hq : ∀ a t, Q a t → Q' a t)
    (he : ∀ e t, E e t → E' e t) (hx : X → X') : Wp c Q' E' X' s := by
  unfold Wp at *
  cases hc : c s with
  | ok a t =>
    rw [hc] at h
    exact hq a t h
  | fail e t =>
    rw [hc] at h
    exact he e t h
  | stop =>
    rw [hc] at h
    exact hx h

theorem Wp.and {c : Cmd σ ε α} (h : Wp c Q E X s) (h' : Wp c Q' E' X' s) :
    Wp c (fun a t => Q a t ∧ Q' a t) (fun e t => E e t ∧ E' e t) (X ∧ X') s := by
  unfold Wp at *
  cases hc : c s <;> rw [hc] at h h' <;> exact ⟨h, h'⟩

theorem wp_trivial (c : Cmd σ ε α) : Wp c (fun _ _ => True) (fun _ _ => True) True s := by
  unfold Wp
  cases c s <;> trivial

theorem wp_of_ok {c : Cmd σ ε α} {a : α} {t : σ} (h : c s = .ok a t) :
    Wp c Q E X s ↔ Q a t := by
  unfold Wp
  rw [h]

theorem wp_of_fail {c : Cmd σ ε α} {e : ε} {t : σ} (h : c s = .fail e t) :
    Wp c Q E X s ↔ E e t := by
  unfold Wp
  rw [h]

theorem wp_of_stop {c : Cmd σ ε α} (h : c s = .stop) : Wp c Q E X s ↔ X := by
  unfold Wp
  rw [h]

/-- A command that neither fails nor stops. -/
theorem Wp.runs {c : Cmd σ ε α} (h : Wp c Q (fun _ _ => False) False s) :
    ∃ a t, c s = .ok a t ∧ Q a t := by
  unfold Wp at h
  cases hc : c s with
  | ok a t =>
    rw [hc] at h
    exact ⟨a, t, rfl, h⟩
  | fail e t =>
    rw [hc] at h
    exact h.elim
  | stop =>
    rw [hc] at h
    exact h.elim

@[simp] theorem wp_pure (a : α) : Wp (pure a : Cmd σ ε α) Q E X s ↔ Q a s := Iff.rfl

@[simp] theorem wp_ret (a : α) : Wp (ret a : Cmd σ ε α) Q E X s ↔ Q a s := Iff.rfl

@[simp] theorem wp_bind {P : β → σ → Prop} (c : Cmd σ ε α) (f : α → Cmd σ ε β) :
    Wp (c >>= f) P E X s ↔ Wp c (fun a t => Wp (f a) P E X t) E X s := by
  show Wp (seq c f) P E X s ↔ _
  unfold Wp seq
  cases c s <;> rfl

@[simp] theorem wp_seq {P : β → σ → Prop} (c : Cmd σ ε α) (f : α → Cmd σ ε β) :
    Wp (seq c f) P E X s ↔ Wp c (fun a t => Wp (f a) P E X t) E X s :=
  wp_bind c f

@[simp] theorem wp_get {P : σ → σ → Prop} : Wp (get : Cmd σ ε σ) P E X s ↔ P s s := Iff.rfl

@[simp] theorem wp_modify {P : Unit → σ → Prop} (f : σ → σ) :
    Wp (modify f : Cmd σ ε Unit) P E X s ↔ P () (f s) := Iff.rfl

@[simp] theorem wp_throw (e : ε) : Wp (throw e : Cmd σ ε α) Q E X s ↔ E e s := Iff.rfl

@[simp] theorem wp_halt : Wp (halt : Cmd σ ε α) Q E X s ↔ X := Iff.rfl

@[simp] theorem wp_check {P : Unit → σ → Prop} (p : Prop) [Decidable p] :
    Wp (check p : Cmd σ ε Unit) P E X s ↔ if p then P () s else X := by
  unfold Wp check
  by_cases hp : p
  · rw [if_pos hp, if_pos hp]
  · rw [if_neg hp, if_neg hp]

@[simp] theorem wp_ite (p : Prop) [Decidable p] (c d : Cmd σ ε α) :
    Wp (if p then c else d) Q E X s ↔ if p then Wp c Q E X s else Wp d Q E X s := by
  by_cases hp : p
  · rw [if_pos hp, if_pos hp]
  · rw [if_neg hp, if_neg hp]

@[simp] theorem wp_onFail (c : Cmd σ ε α) (h : Cmd σ ε Unit) :
    Wp (onFail c h) Q E X s ↔ Wp c Q (fun e t => Wp h (fun _ u => E e u) E X t) X s := by
  unfold Wp onFail
  cases c s with
  | ok a t => rfl
  | fail e t =>
    cases hh : h t <;> simp [hh]
  | stop => rfl

@[simp] theorem wp_attempt {P : Except ε α → σ → Prop} (c : Cmd σ ε α) :
    Wp (attempt c) P E X s ↔ Wp c (fun a t => P (.ok a) t) (fun e t => P (.error e) t) X s := by
  unfold Wp attempt
  cases c s <;> rfl

/-- The rule of the counting loop: each round takes the invariant one further. -/
theorem wp_countUp {body : Nat → Cmd σ ε Unit} {I : Nat → σ → Prop} (n : Nat) (i : Nat)
    (h0 : I i s)
    (h : ∀ k t, i ≤ k → k < i + n → I k t → Wp (body k) (fun _ u => I (k + 1) u) E X t) :
    Wp (countUp body i n) (fun _ t => I (i + n) t) E X s := by
  induction n generalizing i s with
  | zero => exact h0
  | succ n ih =>
    rw [countUp, wp_seq]
    apply Wp.mono (h i s (Nat.le_refl i) (by omega) h0) _ (fun _ _ he => he) id
    intro _ t ht
    have hn := ih (i + 1) ht fun k u hk hkn => h k u (by omega) (by omega)
    rw [show i + 1 + n = i + (n + 1) by omega] at hn
    exact hn

/-- The rule of the loop over a list: the invariant tells of what is still to come. -/
theorem wp_each {body : α → Cmd σ ε Unit} {I : List α → σ → Prop} {as : List α} (h0 : I as s)
    (h : ∀ a as t, I (a :: as) t → Wp (body a) (fun _ u => I as u) E X t) :
    Wp (each body as) (fun _ t => I [] t) E X s := by
  induction as generalizing s with
  | nil => exact h0
  | cons a as ih =>
    rw [each, wp_seq]
    apply Wp.mono (h a as s h0) _ (fun _ _ he => he) id
    intro _ t ht
    exact ih ht

/-! ## Foreseen failures -/

/-- `c` fails if `p`, and returns in `Q` if not. It does not stop the machine. -/
def FailsIff (c : Cmd σ ε α) (p : Prop) (Q : α → σ → Prop) (s : σ) : Prop :=
  Wp c (fun a t => ¬ p ∧ Q a t) (fun _ _ => p) False s

section

variable {c : Cmd σ ε α} {f : α → Cmd σ ε β} {p q r : Prop} {P : β → σ → Prop}

theorem FailsIff.bind (hc : FailsIff c p Q s) (hr : p ∨ q ↔ r)
    (hf : ∀ a t, ¬ p → Q a t → FailsIff (f a) q P t) : FailsIff (c >>= f) r P s := by
  unfold FailsIff
  rw [wp_bind, ← hr]
  apply Wp.mono hc _ (fun _ _ => .inl) id
  rintro a t ⟨hp, ha⟩
  apply Wp.mono (hf a t hp ha) _ (fun _ _ => .inr) id
  rintro b u ⟨hq, hb⟩
  exact ⟨not_or.mpr ⟨hp, hq⟩, hb⟩

/-- A command that does not fail, and then another one. -/
theorem FailsIff.quiet_bind (hc : FailsIff c False Q s)
    (hf : ∀ a t, Q a t → FailsIff (f a) q P t) : FailsIff (c >>= f) q P s :=
  hc.bind (Iff.of_eq (false_or q)) fun a t _ => hf a t

theorem FailsIff.bind_quiet (hc : FailsIff c p Q s)
    (hf : ∀ a t, ¬ p → Q a t → FailsIff (f a) False P t) : FailsIff (c >>= f) p P s :=
  hc.bind (Iff.of_eq (or_false p)) hf

theorem FailsIff.imp (h : FailsIff c p Q s) (hp : p ↔ q) (hq : ∀ a t, Q a t → Q' a t) :
    FailsIff c q Q' s := by
  rw [← hp]
  exact Wp.mono h (fun a t ha => ⟨ha.1, hq a t ha.2⟩) (fun _ _ => id) id

theorem failsIff_pure {a : α} (h : Q a s) : FailsIff (pure a : Cmd σ ε α) False Q s := ⟨id, h⟩

theorem failsIff_get {P : σ → σ → Prop} (h : P s s) :
    FailsIff (get : Cmd σ ε σ) False P s := ⟨id, h⟩

theorem failsIff_modify {P : Unit → σ → Prop} {g : σ → σ} (h : P () (g s)) :
    FailsIff (modify g : Cmd σ ε Unit) False P s := ⟨id, h⟩

theorem failsIff_throw {e : ε} (h : p) : FailsIff (throw e : Cmd σ ε α) p Q s := h

theorem FailsIff.ends (h : FailsIff c p Q s) :
    (p ∧ ∃ e t, c s = .fail e t) ∨ (¬ p ∧ ∃ a t, c s = .ok a t ∧ Q a t) := by
  unfold FailsIff Wp at h
  cases hc : c s with
  | ok a t =>
    rw [hc] at h
    exact .inr ⟨h.1, a, t, rfl, h.2⟩
  | fail e t =>
    rw [hc] at h
    exact .inl ⟨h, e, t, rfl⟩
  | stop =>
    rw [hc] at h
    exact h.elim

/-- The rule of the loop over a list: it fails at the first element that fails. -/
theorem failsIff_each {body : α → Cmd σ ε Unit} {P : α → Prop} {I : σ → Prop} {as : List α}
    (h0 : I s) (h : ∀ a ∈ as, ∀ t, I t → FailsIff (body a) (P a) (fun _ u => I u) t) :
    FailsIff (each body as) (∃ a ∈ as, P a) (fun _ u => I u) s := by
  induction as generalizing s with
  | nil => exact ⟨by simp, h0⟩
  | cons a as ih =>
    rw [List.forall_mem_cons] at h
    have hbad : (P a ∨ ∃ b ∈ as, P b) ↔ ∃ b ∈ a :: as, P b := by simp
    exact (h.1 s h0).bind hbad fun _ t _ ht => ih ht h.2

end

end Cmd

end nehcpu.command
