-- Ring buffers whose two positions run on freely: a cell is found by the position modulo the number of
-- cells. Nothing here knows what the cells hold.
import Mathlib.Data.Nat.ModEq
import Mathlib.Logic.Function.Basic

namespace nehcpu.ring

open Function

variable {α : Type*} {cap : Nat}

/-- What the ring holds from a position on, the oldest first. -/
def contents (cap : Nat) (cells : Nat → α) (pos n : Nat) : List α :=
  (List.range n).map fun i => cells ((pos + i) % cap)

@[simp] theorem contents_zero (cells : Nat → α) (pos : Nat) : contents cap cells pos 0 = [] := rfl

@[simp] theorem length_contents (cells : Nat → α) (pos n : Nat) :
    (contents cap cells pos n).length = n := by
  simp [contents]

theorem contents_cons (cells : Nat → α) (pos n : Nat) :
    contents cap cells pos (n + 1) = cells (pos % cap) :: contents cap cells (pos + 1) n := by
  unfold contents
  rw [List.range_succ_eq_map, List.map_cons, List.map_map, Nat.add_zero]
  congr 1
  apply List.map_congr_left
  intro i _
  show cells ((pos + (i + 1)) % cap) = cells ((pos + 1 + i) % cap)
  rw [Nat.add_assoc, Nat.add_comm 1 i]

theorem contents_snoc (cells : Nat → α) (pos n : Nat) :
    contents cap cells pos (n + 1) = contents cap cells pos n ++ [cells ((pos + n) % cap)] := by
  unfold contents
  rw [List.range_succ, List.map_append]
  rfl

/-- Fewer positions than there are cells do not meet. -/
theorem mod_ne {pos i n : Nat} (hi : i < n) (hn : n < cap) : (pos + i) % cap ≠ (pos + n) % cap := by
  intro h
  have hmod : i ≡ n [MOD cap] := Nat.ModEq.add_left_cancel' pos h
  have hlt : i < cap := Nat.lt_trans hi hn
  have heq : i = n := Nat.ModEq.eq_of_lt_of_lt hmod hlt hn
  omega

/-- A new one goes behind the others. -/
theorem contents_push (cells : Nat → α) (pos : Nat) {n : Nat} (hn : n < cap) (a : α) :
    contents cap (update cells ((pos + n) % cap) a) pos (n + 1) =
      contents cap cells pos n ++ [a] := by
  rw [contents_snoc, update_self]
  congr 1
  apply List.map_congr_left
  intro i hi
  exact update_of_ne (mod_ne (List.mem_range.1 hi) hn) _ _

/-- In a full ring it takes the place of the oldest. -/
theorem contents_overwrite (cells : Nat → α) (pos n : Nat) (a : α) :
    contents (n + 1) (update cells ((pos + (n + 1)) % (n + 1)) a) pos (n + 1) =
      a :: contents (n + 1) cells (pos + 1) n := by
  rw [contents_cons, Nat.add_mod_right, update_self]
  congr 1
  apply List.map_congr_left
  intro i hi
  have hlt : i + 1 < n + 1 := Nat.succ_lt_succ (List.mem_range.1 hi)
  have hne : (pos + 1 + i) % (n + 1) ≠ pos % (n + 1) := by
    intro h
    have hmod : pos + (i + 1) ≡ pos + 0 [MOD n + 1] := by
      rw [Nat.add_comm i 1, ← Nat.add_assoc]
      exact h
    have heq := Nat.ModEq.eq_of_lt_of_lt (Nat.ModEq.add_left_cancel' pos hmod) hlt
      (Nat.succ_pos n)
    omega
  exact update_of_ne hne _ _

end nehcpu.ring
