-- Chains of indices in an array of links, ended by a mark: the free list of a pool.
import Mathlib.Logic.Function.Basic
import Mathlib.Data.List.Nodup

namespace nehcpu.chain

open Function

variable {α : Type*} {stop : α} {link link' : α → α}

/-- The links lead from the index through the list and end at the mark. -/
def Chain (stop : α) (link : α → α) : α → List α → Prop
  | i, [] => i = stop
  | i, j :: l => i = j ∧ Chain stop link (link j) l

theorem Chain.congr {i : α} {l : List α} (h : Chain stop link i l)
    (hl : ∀ j ∈ l, link' j = link j) : Chain stop link' i l := by
  induction l generalizing i with
  | nil => exact h
  | cons j l ih =>
    refine ⟨h.1, ?_⟩
    rw [hl j List.mem_cons_self]
    exact ih h.2 fun k hk => hl k (List.mem_cons_of_mem j hk)

/-- An index that is not in the chain becomes its first one. -/
theorem Chain.push [DecidableEq α] {i j : α} {l : List α} (h : Chain stop link i l) (hj : j ∉ l) :
    Chain stop (update link j i) j (j :: l) := by
  refine ⟨rfl, ?_⟩
  rw [update_self]
  apply h.congr
  intro k hk
  rw [update_of_ne]
  rintro rfl
  exact hj hk

/-- A chain whose indices are not the mark is empty just when it starts at the mark. -/
theorem Chain.eq_nil {i : α} {l : List α} (h : Chain stop link i l) (hs : stop ∉ l) :
    i = stop ↔ l = [] := by
  cases l with
  | nil => exact ⟨fun _ => rfl, fun _ => h⟩
  | cons j l =>
    obtain rfl := h.1
    constructor
    · rintro rfl
      exact absurd List.mem_cons_self hs
    · intro hl
      cases hl

/-- The chain as the links give it, up to a length. -/
def walk [DecidableEq α] (stop : α) (link : α → α) : Nat → α → List α
  | 0, _ => []
  | n + 1, i => if i = stop then [] else i :: walk stop link n (link i)

theorem Chain.walk_eq [DecidableEq α] {i : α} {l : List α} {n : Nat} (h : Chain stop link i l)
    (hs : stop ∉ l) (hn : l.length ≤ n) : walk stop link n i = l := by
  induction n generalizing i l with
  | zero => exact (List.length_eq_zero_iff.1 (Nat.le_zero.1 hn)).symm
  | succ n ih =>
    rw [walk]
    cases l with
    | nil => exact if_pos h
    | cons j l =>
      obtain rfl := h.1
      rw [if_neg, ih h.2 (fun hm => hs (List.mem_cons_of_mem _ hm)) (Nat.le_of_succ_le_succ hn)]
      rintro rfl
      exact hs List.mem_cons_self

/-- Links that go up by one make a chain of the whole pool. -/
theorem chain_range {stop : Nat} {link : Nat → Nat} {n : Nat} (m k : Nat) (hm : k + m + 1 = n)
    (hup : ∀ i, i + 1 < n → link i = i + 1) (hlast : link (n - 1) = stop) :
    Chain stop link k (List.range' k (m + 1)) := by
  induction m generalizing k with
  | zero =>
    obtain rfl : k = n - 1 := by omega
    exact ⟨rfl, hlast⟩
  | succ m ih =>
    refine ⟨rfl, ?_⟩
    rw [hup k (by omega)]
    exact ih (k + 1) (by omega)

end nehcpu.chain
