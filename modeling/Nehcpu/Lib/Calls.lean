-- The calls that are in progress, as a list in no order of its own. Nothing here knows what a call is.
import Mathlib.Data.List.Count
import Nehcpu.Lib.RefCount

namespace nehcpu.calls

variable {κ : Type*} [DecidableEq κ]

/-- The call `c` goes on as `new`. -/
def goOn (calls : List κ) (c : κ) (new : List κ) : List κ := new ++ calls.erase c

theorem count_goOn_ne {calls : List κ} {c d : κ} {new : List κ} (hd : d ≠ c) (hn : d ∉ new) :
    (goOn calls c new).count d = calls.count d := by
  unfold goOn
  rw [List.count_append, List.count_erase_of_ne hd, List.count_eq_zero_of_not_mem hn,
    Nat.zero_add]

theorem count_goOn_self {calls : List κ} {c : κ} {new : List κ} (h : c ∈ calls) (hn : c ∉ new) :
    (goOn calls c new).count c + 1 = calls.count c := by
  have hpos := List.count_pos_iff.2 h
  unfold goOn
  rw [List.count_append, List.count_erase_self, List.count_eq_zero_of_not_mem hn]
  omega

theorem count_goOn_new {calls : List κ} {c d : κ} (hd : d ≠ c) :
    (goOn calls c [d]).count d = calls.count d + 1 := by
  unfold goOn
  rw [List.count_append, List.count_erase_of_ne hd, List.count_singleton_self,
    Nat.add_comm]

theorem countP_goOn {calls : List κ} {c : κ} (h : c ∈ calls) (new : List κ) (p : κ → Bool) :
    (goOn calls c new).countP p + (if p c then 1 else 0) = new.countP p + calls.countP p := by
  unfold goOn
  rw [List.countP_append, List.countP_erase]
  by_cases hp : p c
  · have hpos : 0 < calls.countP p := List.countP_pos_iff.2 ⟨c, h, hp⟩
    simp [hp, h]
    omega
  · simp [hp]

theorem mem_goOn {calls : List κ} {c d : κ} {new : List κ} (h : d ∈ goOn calls c new) :
    d ∈ new ∨ d ∈ calls := by
  rcases List.mem_append.1 h with h | h
  · exact Or.inl h
  · exact Or.inr (List.mem_of_mem_erase h)

/-! ## Changes of the list -/

/-- The calls `old` go out of the list and the calls `new` come in. -/
structure Moves (calls old new calls' : List κ) : Prop where
  count : ∀ p : κ → Bool, calls'.countP p + old.countP p = calls.countP p + new.countP p
  mem : ∀ c ∈ calls', c ∈ calls ∨ c ∈ new

omit [DecidableEq κ] in
theorem Moves.refl (calls : List κ) : Moves calls [] [] calls :=
  ⟨fun _ => rfl, fun _ h => Or.inl h⟩

theorem Moves.drop {calls : List κ} {c : κ} (h : c ∈ calls) :
    Moves calls [c] [] (goOn calls c []) := by
  constructor
  · intro p
    have := countP_goOn h [] p
    simpa [List.countP_cons] using this
  · intro d hd
    exact Or.inl ((mem_goOn hd).resolve_left (List.not_mem_nil))

omit [DecidableEq κ] in
theorem Moves.append {calls old calls' : List κ} (h : Moves calls old [] calls') (new : List κ) :
    Moves calls old new (new ++ calls') := by
  constructor
  · intro p
    have := h.count p
    simp at this ⊢
    omega
  · intro d hd
    rcases List.mem_append.1 hd with hd | hd
    · exact Or.inr hd
    · exact Or.inl ((h.mem d hd).resolve_right (List.not_mem_nil))

omit [DecidableEq κ] in
theorem Moves.push {calls old calls' : List κ} (h : Moves calls old [] calls') (c : κ) :
    Moves calls old [c] (c :: calls') :=
  h.append [c]

/-! ## What calls hold -/

section

variable {π : Type*} [DecidableEq π]

/-- The number of calls that hold `x`, where `f` says what a call holds. -/
def holding (f : κ → Option π) (calls : List κ) (x : π) : Nat := calls.countP fun c => f c = some x

omit [DecidableEq κ]

@[simp] theorem holding_nil (f : κ → Option π) (x : π) : holding f [] x = 0 := rfl

@[simp] theorem holding_singleton (f : κ → Option π) (c : κ) (x : π) :
    holding f [c] x = refcount.holds (f c) x := by
  unfold holding refcount.holds
  rw [List.countP_singleton]
  by_cases h : f c = some x <;> simp [h]

theorem holding_pos {f : κ → Option π} {calls : List κ} {x : π} :
    0 < holding f calls x ↔ ∃ c ∈ calls, f c = some x := by
  unfold holding
  rw [List.countP_pos_iff]
  simp

theorem holding_eq_zero {f : κ → Option π} {calls : List κ} {x : π} (h : ∀ c ∈ calls, f c ≠ some x) :
    holding f calls x = 0 := by
  apply List.countP_eq_zero.2
  intro c hc
  simpa using h c hc

theorem Moves.holding {calls old new calls' : List κ} (h : Moves calls old new calls')
    (f : κ → Option π) (x : π) :
    holding f calls' x + holding f old x = holding f calls x + holding f new x :=
  h.count _

end

end nehcpu.calls
