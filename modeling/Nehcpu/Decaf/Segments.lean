-- Code that calls functions, and pieces of code that run one behind the other: each jumps to its own
-- labels only, and writes temps that are new.
import Nehcpu.Decaf.Arrays
import Nehcpu.Decaf.LivenessOk

namespace nehcpu.decaf

open cpu simulation

/-! ## Calls -/

/-- The functions that a piece of code calls, by their labels or by the words of a vtable: the word of
the result and the machine behind the call, where it comes back. A callee has temps of its own, and
takes its arguments away. -/
structure Callees where
  call : Label ⊕ Word → Machine → Option (Word × Machine)
  keeps : ∀ {f m w m'}, call f m = some (w, m') → m'.temps = m.temps ∧ m'.parms = []

/-- Behind a call. -/
def Machine.answer (op0 : Option Temp) (w : Word) (m : Machine) : Machine :=
  match op0 with
  | some t => m.setTemp t w
  | none => m

/-- One instruction of a piece of code that keeps to itself and calls functions. -/
def Callees.step (callees : Callees) (lay : Layout) (code : List Tac) : Run → Option Run
  | ⟨none, _⟩ => none
  | ⟨some [], _⟩ => none
  | ⟨some (t :: rest), m⟩ =>
    match t with
    | .directCall op0 l =>
      match callees.call (.inl l) m with
      | some (w, m') => some ⟨some rest, m'.answer op0 w⟩
      | none => some ⟨none, m⟩
    | .indirectCall op0 op1 =>
      match callees.call (.inr (m.temps op1)) m with
      | some (w, m') => some ⟨some rest, m'.answer op0 w⟩
      | none => some ⟨none, m⟩
    | t => stepTac lay code ⟨some (t :: rest), m⟩

/-- The code runs to its end. -/
def Callees.Completes (callees : Callees) (lay : Layout) (code : List Tac) (m m' : Machine) : Prop :=
  Reaches (callees.step lay code) ⟨some code, m⟩ ⟨some [], m'⟩

/-! ## Segments -/

/-- What may be handed over with PARM waits for a call, and no jump comes between. -/
def settle : Bool → List Tac → Option Bool
  | waits, [] => some waits
  | waits, t :: code =>
    match t with
    | .parm _ => settle true code
    | .directCall _ _ | .indirectCall _ _ => settle false code
    | .ret _ => none
    | t => if waits && (t.isMark || t.isJump) then none else settle waits code

/-- A piece of code that writes temps from `k` on, marks labels from `j` up to `j'`, and jumps to these
only. -/
structure Segment (k j j' : Nat) (code : List Tac) : Prop where
  writes : ∀ t ∈ code, ∀ x, t.defines = some x → k ≤ x.id
  marks : ∀ l, .mark l ∈ code → j ≤ l.id ∧ l.id < j'
  jumps : ∀ t ∈ code, ∀ l, t.target? = some l → .mark l ∈ code

section

variable {k k' j j' j'' : Nat} {code code' : List Tac} {waits waits' : Bool}

/-- One instruction of code in which nothing is left waiting. -/
theorem settle_cons {t : Tac} (h : settle waits (t :: code) = some waits') :
    (∀ op0, t ≠ .ret op0) ∧ ∃ next, (∀ rest, settle waits (t :: rest) = settle next rest) ∧
      ((t.isMark || t.isJump) = true → waits = false ∧ next = false) := by
  cases t with
  | ret op0 => cases h
  | parm op0 => exact ⟨nofun, true, fun _ => rfl, nofun⟩
  | directCall op0 l => exact ⟨nofun, false, fun _ => rfl, nofun⟩
  | indirectCall op0 op1 => exact ⟨nofun, false, fun _ => rfl, nofun⟩
  | _ =>
    simp only [settle] at h
    split at h
    · cases h
    · next hno =>
      refine ⟨nofun, waits, fun rest => ?_, fun hstop => ?_⟩
      · simp only [settle, if_neg hno]
      · simp only [hstop, Bool.and_true, Bool.not_eq_true] at hno
        exact ⟨hno, hno⟩

theorem settle_append {waits'' : Bool} (h : settle waits code = some waits')
    (h' : settle waits' code' = some waits'') : settle waits (code ++ code') = some waits'' := by
  induction code generalizing waits with
  | nil =>
    obtain rfl := Option.some_inj.mp h
    exact h'
  | cons t code ih =>
    obtain ⟨-, next, hnext, -⟩ := settle_cons h
    rw [hnext] at h
    rw [List.cons_append, hnext]
    exact ih h

theorem settle_ret (h : settle waits code = some waits') (op0 : Option Temp) : .ret op0 ∉ code := by
  induction code generalizing waits with
  | nil => simp
  | cons t code ih =>
    obtain ⟨hret, next, hnext, -⟩ := settle_cons h
    rw [hnext] at h
    rw [List.mem_cons, not_or]
    exact ⟨(hret op0).symm, ih h⟩

theorem whereTac_cons {t : Tac} {l : Label} (h : t ≠ .mark l) :
    whereTac (t :: code) l = whereTac code l := by
  unfold whereTac
  apply List.dropWhile_cons_of_pos
  cases t <;> simp_all [Tac.marked?]

/-- At a label nothing waits. -/
theorem settle_whereTac {l : Label} (h : settle waits code = some waits') (hl : .mark l ∈ code) :
    settle false (whereTac code l) = some waits' := by
  induction code generalizing waits with
  | nil => cases hl
  | cons t code ih =>
    obtain ⟨-, next, hnext, hstop⟩ := settle_cons h
    by_cases ht : t = .mark l
    · subst ht
      have hwhere : whereTac (.mark l :: code) l = .mark l :: code := by
        simp [whereTac, Tac.marked?]
      rw [hwhere, ← (hstop rfl).1]
      exact h
    · rw [hnext] at h
      rw [whereTac_cons ht]
      exact ih h ((List.mem_cons.mp hl).resolve_left fun heq => ht heq.symm)

theorem Segment.append (h : Segment k j j' code) (h' : Segment k' j' j'' code') (hk : k ≤ k')
    (hj : j ≤ j') (hj' : j' ≤ j'') : Segment k j j'' (code ++ code') := by
  constructor
  · intro t ht x hx
    rcases List.mem_append.mp ht with ht | ht
    · exact h.writes t ht x hx
    · exact Nat.le_trans hk (h'.writes t ht x hx)
  · intro l hl
    rcases List.mem_append.mp hl with hl | hl
    · exact (h.marks l hl).imp_right fun hlt => Nat.lt_of_lt_of_le hlt hj'
    · exact (h'.marks l hl).imp_left fun hle => Nat.le_trans hj hle
  · intro t ht l hl
    rcases List.mem_append.mp ht with ht | ht
    · exact List.mem_append_left _ (h.jumps t ht l hl)
    · exact List.mem_append_right _ (h'.jumps t ht l hl)

theorem Segment.nil (k j j' : Nat) : Segment k j j' [] := ⟨nofun, nofun, nofun⟩

/-! ## Runs of segments -/

theorem whereTac_append_left {l : Label} (h : .mark l ∈ code) :
    whereTac (code ++ code') l = whereTac code l ++ code' := by
  induction code with
  | nil => cases h
  | cons t code ih =>
    by_cases ht : t = .mark l
    · subst ht
      simp [whereTac, Tac.marked?]
    · rw [List.cons_append, whereTac_cons ht, whereTac_cons ht]
      exact ih ((List.mem_cons.mp h).resolve_left fun heq => ht heq.symm)

theorem whereTac_append_right {l : Label} (h : .mark l ∉ code) :
    whereTac (code ++ code') l = whereTac code' l := by
  induction code with
  | nil => rfl
  | cons t code ih =>
    rw [List.mem_cons, not_or] at h
    rw [List.cons_append, whereTac_cons (Ne.symm h.1)]
    exact ih h.2

end

/-- What a step can do: it jumps and changes nothing else, or it goes on to the next instruction.
Where it stands in does not matter to what it does. -/
inductive Moves (callees : Callees) (lay : Layout) (t : Tac) (m : Machine) : Prop
  | jumps (l : Label) (target : t.target? = some l)
      (step : ∀ code rest, callees.step lay code ⟨some (t :: rest), m⟩ =
        some ⟨some (whereTac code l), m⟩)
  | goes (u : Machine)
      (step : ∀ code rest, callees.step lay code ⟨some (t :: rest), m⟩ = some ⟨some rest, u⟩)
      (temps : ∀ x, t.defines ≠ some x → u.temps x = m.temps x)
      (parms : ∀ rest waits, settle (!m.parms.isEmpty) (t :: rest) = some waits →
        settle (!u.parms.isEmpty) rest = some waits)
  | stays (step : ∀ code rest, callees.step lay code ⟨some (t :: rest), m⟩ = some ⟨none, m⟩)

section

variable {callees : Callees} {lay : Layout} {m : Machine}

theorem answer_temps {op0 : Option Temp} {w : Word} {x : Temp} (h : op0 ≠ some x) :
    (m.answer op0 w).temps x = m.temps x := by
  cases op0 with
  | none => rfl
  | some t => exact Function.update_of_ne (fun heq : x = t => h (congrArg some heq.symm)) _ _

theorem answer_parms (op0 : Option Temp) (w : Word) : (m.answer op0 w).parms = m.parms := by
  cases op0 <;> rfl

/-- What is known behind a call that comes back. -/
theorem called (op0 : Option Temp) {f : Label ⊕ Word} {w : Word} {m' : Machine}
    (h : callees.call f m = some (w, m')) :
    (∀ x, op0 ≠ some x → (m'.answer op0 w).temps x = m.temps x) ∧ (m'.answer op0 w).parms = [] := by
  obtain ⟨htemps, hparms⟩ := callees.keeps h
  refine ⟨fun x hx => ?_, ?_⟩
  · rw [answer_temps hx, htemps]
  · rw [answer_parms, hparms]

theorem moves {t : Tac} (hret : ∀ op0, t ≠ .ret op0) : Moves callees lay t m := by
  cases t with
  | ret op0 => exact absurd rfl (hret op0)
  | branch l => exact .jumps l rfl fun _ _ => rfl
  | beqz op0 l =>
    by_cases hz : m.temps op0 = 0#32
    · exact .jumps l rfl fun _ _ => by simp [Callees.step, stepTac, hz]
    · refine .goes m (fun _ _ => by simp [Callees.step, stepTac, hz]) (fun _ _ => rfl) ?_
      intro rest waits h
      simp only [settle] at h
      split at h
      · cases h
      · exact h
  | bnez op0 l =>
    by_cases hz : m.temps op0 = 0#32
    · refine .goes m (fun _ _ => by simp [Callees.step, stepTac, hz]) (fun _ _ => rfl) ?_
      intro rest waits h
      simp only [settle] at h
      split at h
      · cases h
      · exact h
    · exact .jumps l rfl fun _ _ => by simp [Callees.step, stepTac, hz]
  | directCall op0 l =>
    cases hcall : callees.call (.inl l) m with
    | none => exact .stays fun _ _ => by simp [Callees.step, hcall]
    | some out =>
      obtain ⟨w, m'⟩ := out
      obtain ⟨htemps, hparms⟩ := called op0 hcall
      refine .goes (m'.answer op0 w) (fun _ _ => by simp [Callees.step, hcall]) htemps ?_
      intro rest waits h
      rw [hparms]
      exact h
  | indirectCall op0 op1 =>
    cases hcall : callees.call (.inr (m.temps op1)) m with
    | none => exact .stays fun _ _ => by simp [Callees.step, hcall]
    | some out =>
      obtain ⟨w, m'⟩ := out
      obtain ⟨htemps, hparms⟩ := called op0 hcall
      refine .goes (m'.answer op0 w) (fun _ _ => by simp [Callees.step, hcall]) htemps ?_
      intro rest waits h
      rw [hparms]
      exact h
  | parm op0 =>
    refine .goes _ (fun _ _ => rfl) (fun _ _ => rfl) ?_
    intro rest waits h
    have hsome : (!(m.parms ++ [m.temps op0]).isEmpty) = true := by simp
    simp only [Machine.exec, hsome]
    exact h
  | mark l =>
    refine .goes _ (fun _ _ => rfl) (fun _ _ => rfl) ?_
    intro rest waits h
    simp only [settle] at h
    split at h
    · cases h
    · exact h
  | store op0 op1 offset =>
    refine .goes _ (fun _ _ => rfl) (fun _ _ => rfl) ?_
    intro rest waits h
    simpa [Machine.exec, settle, Tac.isMark, Tac.marked?, Tac.isJump] using h
  | memo str =>
    refine .goes _ (fun _ _ => rfl) (fun _ _ => rfl) ?_
    intro rest waits h
    simpa [Machine.exec, settle, Tac.isMark, Tac.marked?, Tac.isJump] using h
  | mult op0 op1 =>
    refine .goes _ (fun _ _ => rfl) (fun _ _ => rfl) ?_
    intro rest waits h
    simpa [Machine.exec, settle, Tac.isMark, Tac.marked?, Tac.isJump] using h
  | _ =>
    refine .goes _ (fun _ _ => rfl) (fun x hx => ?_) ?_
    · exact Function.update_of_ne (Ne.symm fun heq => hx (congrArg some heq)) _ _
    · intro rest waits h
      simpa [Machine.exec, settle, Tac.isMark, Tac.marked?, Tac.isJump] using h

theorem step_none {code : List Tac} {s : Run} (h : s.rest = none) :
    callees.step lay code s = none := by
  obtain ⟨rest, u⟩ := s
  obtain rfl : rest = none := h
  rfl

theorem Callees.Completes.unique {code : List Tac} {m' m'' : Machine}
    (h : callees.Completes lay code m m') (h' : callees.Completes lay code m m'') : m' = m'' :=
  congrArg Run.m (Reaches.unique h h' rfl rfl)

/-- A step inside some code, with the instruction that it carries out. -/
inductive Turn (callees : Callees) (lay : Layout) (code : List Tac) (t : Tac) (r : List Tac)
    (m : Machine) (s' : Run) : Prop
  | jumps (l : Label) (target : t.target? = some l)
      (step : ∀ code rest, callees.step lay code ⟨some (t :: rest), m⟩ =
        some ⟨some (whereTac code l), m⟩) (ends : s' = ⟨some (whereTac code l), m⟩)
  | goes (u : Machine)
      (step : ∀ code rest, callees.step lay code ⟨some (t :: rest), m⟩ = some ⟨some rest, u⟩)
      (temps : ∀ x, t.defines ≠ some x → u.temps x = m.temps x)
      (parms : ∀ rest waits, settle (!m.parms.isEmpty) (t :: rest) = some waits →
        settle (!u.parms.isEmpty) rest = some waits) (ends : s' = ⟨some r, u⟩)
  | stays (ends : s' = ⟨none, m⟩)

theorem turn {code : List Tac} {waits : Bool} (hcode : settle false code = some waits) {s s' : Run}
    (hs : ∀ r, s.rest = some r → r <:+ code) (hstep : callees.step lay code s = some s') :
    ∃ t r, s.rest = some (t :: r) ∧ t ∈ code ∧ r <:+ code ∧ Turn callees lay code t r s.m s' := by
  obtain ⟨rest, u⟩ := s
  cases rest with
  | none => cases hstep
  | some r =>
    cases r with
    | nil => cases hstep
    | cons t r =>
      have hsuffix := hs _ rfl
      have ht : t ∈ code := hsuffix.subset List.mem_cons_self
      have hret : ∀ op0, t ≠ .ret op0 := fun op0 heq => settle_ret hcode op0 (heq ▸ ht)
      refine ⟨t, r, rfl, ht, (List.suffix_cons t r).trans hsuffix, ?_⟩
      have hmoves : Moves callees lay t u := moves hret
      rcases hmoves with ⟨l, htarget, hgo⟩ | ⟨v, hgo, htemps, hparms⟩ | hgo
      · rw [hgo] at hstep
        exact .jumps l htarget hgo (Option.some_inj.mp hstep).symm
      · rw [hgo] at hstep
        exact .goes v hgo htemps hparms (Option.some_inj.mp hstep).symm
      · rw [hgo] at hstep
        exact .stays (Option.some_inj.mp hstep).symm

/-- What a run of a segment keeps: the older temps, and that what was handed over is taken. -/
structure Inside (code : List Tac) (k : Nat) (waits : Bool) (m : Machine) (s : Run) : Prop where
  rest : ∀ r, s.rest = some r → r <:+ code ∧ settle (!s.m.parms.isEmpty) r = some waits
  temps : ∀ x, x.id < k → s.m.temps x = m.temps x

theorem step_inside {code : List Tac} {k j j' : Nat} {waits : Bool} (h : Segment k j j' code)
    (hcode : settle false code = some waits) {s s' : Run} (hs : Inside code k waits m s)
    (hstep : callees.step lay code s = some s') : Inside code k waits m s' := by
  obtain ⟨t, r, hrest, ht, hr, hturn⟩ := turn hcode (fun r hr => (hs.rest r hr).1) hstep
  have hsettle := (hs.rest _ hrest).2
  cases hturn with
  | jumps l target _ ends =>
    subst ends
    refine ⟨fun q hq => ?_, hs.temps⟩
    obtain rfl := Option.some_inj.mp hq
    -- in front of a jump nothing waits
    have hjump : (t.isMark || t.isJump) = true := by
      cases t <;> simp_all [Tac.target?, Tac.isJump]
    obtain ⟨-, next, -, hstop⟩ := settle_cons hsettle
    show _ ∧ settle (!s.m.parms.isEmpty) _ = _
    rw [(hstop hjump).1]
    exact ⟨List.dropWhile_suffix _, settle_whereTac hcode (h.jumps t ht l target)⟩
  | goes u _ temps parms ends =>
    subst ends
    refine ⟨fun q hq => ?_, fun x hx => ?_⟩
    · obtain rfl := Option.some_inj.mp hq
      exact ⟨hr, parms _ _ hsettle⟩
    · refine (temps x fun hdef => ?_).trans (hs.temps x hx)
      exact absurd (h.writes t ht x hdef) (Nat.not_le_of_lt hx)
  | stays ends =>
    subst ends
    refine ⟨fun q hq => ?_, hs.temps⟩
    cases hq

/-- A segment that runs to its end has left the older temps alone, and nothing waits. -/
theorem Segment.kept {code : List Tac} {k j j' : Nat} (h : Segment k j j' code)
    (hcode : settle false code = some false) (hm : m.parms = []) {m' : Machine}
    (hrun : callees.Completes lay code m m') :
    (∀ x : Temp, x.id < k → m'.temps x = m.temps x) ∧ m'.parms = [] := by
  have hstart : Inside code k false m ⟨some code, m⟩ := by
    refine ⟨fun r hr => ?_, fun _ _ => rfl⟩
    obtain rfl := Option.some_inj.mp hr
    rw [hm]
    exact ⟨List.suffix_refl _, hcode⟩
  have hend := hrun.invariant (fun _ _ hs hstep => step_inside h hcode hs hstep) hstart
  refine ⟨hend.temps, ?_⟩
  have hsettle := (hend.rest [] rfl).2
  simpa [settle] using hsettle

end

section

variable {callees : Callees} {lay : Layout} {code : List Tac} {m m' m'' : Machine} {waits : Bool}

/-- A run inside some code, with what goes along with each of its steps. -/
theorem follow {P : List Tac → Machine → Prop} (hcode : settle false code = some waits)
    (h0 : P code m)
    (h : ∀ t r n s', t ∈ code → r <:+ code → P (t :: r) n → Turn callees lay code t r n s' →
      ∀ q, s'.rest = some q → P q s'.m) {s : Run}
    (hrun : Reaches (callees.step lay code) ⟨some code, m⟩ s) :
    ∀ r, s.rest = some r → r <:+ code ∧ P r s.m := by
  induction hrun with
  | refl =>
    intro r hr
    obtain rfl := Option.some_inj.mp hr
    exact ⟨List.suffix_refl _, h0⟩
  | tail _ hstep ih =>
    intro q hq
    obtain ⟨t, r, hrest, ht, hr, hturn⟩ := turn hcode (fun r hr => (ih r hr).1) hstep
    refine ⟨?_, h t r _ _ ht hr (ih _ hrest).2 hturn q hq⟩
    cases hturn with
    | jumps l _ _ ends =>
      subst ends
      obtain rfl := Option.some_inj.mp hq
      exact List.dropWhile_suffix _
    | goes u _ _ _ ends =>
      subst ends
      obtain rfl := Option.some_inj.mp hq
      exact hr
    | stays ends =>
      subst ends
      cases hq

variable {code' : List Tac} {k k' j j' j'' : Nat}

/-- In front of other code a segment runs as it does alone. -/
theorem Segment.reaches_left (h : Segment k j j' code) (hcode : settle false code = some false)
    (code' : List Tac) (hrun : callees.Completes lay code m m') :
    Reaches (callees.step lay (code ++ code')) ⟨some (code ++ code'), m⟩ ⟨some code', m'⟩ := by
  refine (follow (P := fun r n => Reaches (callees.step lay (code ++ code'))
    ⟨some (code ++ code'), m⟩ ⟨some (r ++ code'), n⟩) hcode (Reaches.refl _) ?_ hrun [] rfl).2
  intro t r n s' ht hr hreach hturn q hq
  refine hreach.trans (Reaches.single ?_)
  cases hturn with
  | jumps l target step ends =>
    subst ends
    obtain rfl := Option.some_inj.mp hq
    rw [List.cons_append, step, whereTac_append_left (h.jumps t ht l target)]
  | goes u step _ _ ends =>
    subst ends
    obtain rfl := Option.some_inj.mp hq
    rw [List.cons_append, step]
  | stays ends =>
    subst ends
    cases hq

/-- And so it does behind code that marks none of its labels. -/
theorem Segment.reaches_right (h' : Segment k' j' j'' code') (hcode' : settle false code' = some false)
    (hapart : ∀ l, .mark l ∈ code → l.id < j') (hrun : callees.Completes lay code' m m') :
    Reaches (callees.step lay (code ++ code')) ⟨some code', m⟩ ⟨some [], m'⟩ := by
  refine (follow (P := fun r n => Reaches (callees.step lay (code ++ code'))
    ⟨some code', m⟩ ⟨some r, n⟩) hcode' (Reaches.refl _) ?_ hrun [] rfl).2
  intro t r n s' ht hr hreach hturn q hq
  refine hreach.trans (Reaches.single ?_)
  cases hturn with
  | jumps l target step ends =>
    subst ends
    obtain rfl := Option.some_inj.mp hq
    have hmark := h'.jumps t ht l target
    have hnot : .mark l ∉ code := fun hmem =>
      absurd (hapart l hmem) (Nat.not_lt_of_le (h'.marks l hmark).1)
    rw [step, whereTac_append_right hnot]
  | goes u step _ _ ends =>
    subst ends
    obtain rfl := Option.some_inj.mp hq
    rw [step]
  | stays ends =>
    subst ends
    cases hq

/-- Two segments run one behind the other. -/
theorem Segment.completes_append (h : Segment k j j' code) (hcode : settle false code = some false)
    (h' : Segment k' j' j'' code') (hcode' : settle false code' = some false)
    (hrun : callees.Completes lay code m m') (hrun' : callees.Completes lay code' m' m'') :
    callees.Completes lay (code ++ code') m m'' :=
  (h.reaches_left hcode code' hrun).trans
    (h'.reaches_right hcode' (fun l hl => (h.marks l hl).2) hrun')

/-- Code that calls nothing runs as it does without callees. -/
theorem completes_of_completes (hcode : settle false code = some waits)
    (hdirect : ∀ op0 l, .directCall op0 l ∉ code) (hindirect : ∀ op0 op1, .indirectCall op0 op1 ∉ code)
    (h : decaf.Completes lay code m m') : callees.Completes lay code m m' := by
  have hall : ∀ u, Reaches (stepTac lay code) ⟨some code, m⟩ u →
      Reaches (callees.step lay code) ⟨some code, m⟩ u := by
    intro u hu
    induction hu with
    | refl => exact Reaches.refl _
    | @tail u v _ hstep ih =>
      have hsuffix := follow (P := fun _ _ => True) hcode trivial (fun _ _ _ _ _ _ _ _ _ _ => trivial)
        ih
      refine ih.trans (Reaches.single ?_)
      obtain ⟨rest, n⟩ := u
      cases rest with
      | none => cases hstep
      | some r =>
        cases r with
        | nil => cases hstep
        | cons t r =>
          have ht : t ∈ code := (hsuffix _ rfl).1.subset List.mem_cons_self
          have hsame : callees.step lay code ⟨some (t :: r), n⟩ =
              stepTac lay code ⟨some (t :: r), n⟩ := by
            cases t with
            | directCall op0 l => exact absurd ht (hdirect op0 l)
            | indirectCall op0 op1 => exact absurd ht (hindirect op0 op1)
            | _ => rfl
          exact hsame.trans hstep
  exact hall _ h

end

end nehcpu.decaf
