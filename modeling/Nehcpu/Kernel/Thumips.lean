-- The divisions of `thumips.h`, for a processor that has no instruction for them: a few terms of
-- the series of the quotient, and a correction by the remainder.
import Mathlib.Tactic.IntervalCases
import Mathlib.Tactic.Linarith
import Nehcpu.Cpu.Defines

namespace nehcpu.kernel.thumips

open cpu

/-! ## The divisions -/

def mulu10 (n : Word) : Word := (n <<< 3) + (n <<< 1)

def divu10 (n : Word) : Word :=
  let q := (n >>> 1) + (n >>> 2)
  let q := q + (q >>> 4)
  let q := q + (q >>> 8)
  let q := q + (q >>> 16)
  let q := q >>> 3
  let r := n - mulu10 q
  q + ((r + 6#32) >>> 4)

def divu5 (n : Word) : Word :=
  let q := (n >>> 3) + (n >>> 4)
  let q := q + (q >>> 4)
  let q := q + (q >>> 8)
  let q := q + (q >>> 16)
  let r := n - q * 5#32
  q + ((13#32 * r) >>> 6)

/-! ## The same without a word size -/

/-- The terms of the series, twice as many each time. -/
def series (q : Int) : Int :=
  let q := q + q / 16
  let q := q + q / 256
  q + q / 65536

def wideDivu10 (n : Int) : Int :=
  let q := series (n / 2 + n / 4) / 8
  let r := n - 10 * q
  q + (r + 6) / 16

def wideDivu5 (n : Int) : Int :=
  let q := series (n / 8 + n / 16)
  let r := n - q * 5
  q + 13 * r / 64

/-! ## How far the series is off -/

/-- Without its remainders the series is `16 / 15`, and the factor of its end is less than one part
of `2 ^ 32` away. -/
theorem series_bounds {q : Int} (h0 : 0 ≤ q) (h : q < 2 ^ 32) :
    15 * series q ≤ 16 * q ∧ 16 * q ≤ 15 * series q + 60 := by
  obtain ⟨q1, hq1⟩ : ∃ q1, q1 = q + q / 16 := ⟨_, rfl⟩
  obtain ⟨q2, hq2⟩ : ∃ q2, q2 = q1 + q1 / 256 := ⟨_, rfl⟩
  obtain ⟨q3, hq3⟩ : ∃ q3, q3 = q2 + q2 / 65536 := ⟨_, rfl⟩
  have hs : series q = q3 := by
    unfold series
    simp only [← hq1, ← hq2, ← hq3]
  have h1 : 16 * q1 ≤ 17 * q ∧ 17 * q ≤ 16 * q1 + 15 := by omega
  have h2 : 256 * q2 ≤ 257 * q1 ∧ 257 * q1 ≤ 256 * q2 + 255 := by omega
  have h3 : 65536 * q3 ≤ 65537 * q2 ∧ 65537 * q2 ≤ 65536 * q3 + 65535 := by omega
  rw [hs]
  constructor
  · linarith only [h1.1, h2.1, h3.1, h0]
  · linarith only [h1.2, h2.2, h3.2, h]

/-- The corrections are right for the remainders that are left. -/
theorem correct_ten {r : Int} (h0 : 0 ≤ r) (h : r ≤ 19) : (r + 6) / 16 = r / 10 := by
  rcases lt_or_ge r 10 with hr | hr
  · omega
  · omega

theorem correct_five {r : Int} (h0 : 0 ≤ r) (h : r ≤ 29) : 13 * r / 64 = r / 5 := by
  interval_cases r <;> rfl

theorem wideDivu10_eq {n : Int} (h0 : 0 ≤ n) (h : n < 2 ^ 32) : wideDivu10 n = n / 10 := by
  obtain ⟨q, hq⟩ : ∃ q, q = n / 2 + n / 4 := ⟨_, rfl⟩
  have hb : 4 * q ≤ 3 * n ∧ 3 * n ≤ 4 * q + 5 := by omega
  obtain ⟨hle, hge⟩ := @series_bounds q (by omega) (by omega)
  rw [hq] at hle hge hb
  unfold wideDivu10
  generalize series (n / 2 + n / 4) = s at hle hge ⊢
  obtain ⟨t, ht⟩ : ∃ t, t = s / 8 := ⟨_, rfl⟩
  have hr : 10 * t ≤ n ∧ n ≤ 10 * t + 19 := by omega
  simp only [← ht]
  obtain ⟨r, rfl⟩ : ∃ r, n = 10 * t + r := ⟨n - 10 * t, by omega⟩
  have hcorrect := correct_ten (by omega : 0 ≤ r) (by omega)
  have hq : (10 * t + r) / 10 = t + r / 10 := by omega
  rw [add_sub_cancel_left, hcorrect, hq]

theorem wideDivu5_eq {n : Int} (h0 : 0 ≤ n) (h : n < 2 ^ 32) : wideDivu5 n = n / 5 := by
  obtain ⟨q, hq⟩ : ∃ q, q = n / 8 + n / 16 := ⟨_, rfl⟩
  have hb : 16 * q ≤ 3 * n ∧ 3 * n ≤ 16 * q + 29 := by omega
  obtain ⟨hle, hge⟩ := @series_bounds q (by omega) (by omega)
  rw [hq] at hle hge hb
  unfold wideDivu5
  generalize series (n / 8 + n / 16) = t at hle hge ⊢
  have hr : 5 * t ≤ n ∧ n ≤ 5 * t + 29 := by omega
  simp only
  obtain ⟨r, rfl⟩ : ∃ r, n = t * 5 + r := ⟨n - t * 5, by omega⟩
  have hcorrect := correct_five (by omega : 0 ≤ r) (by omega)
  have hq : (t * 5 + r) / 5 = t + r / 5 := by omega
  rw [add_sub_cancel_left, hcorrect, hq]

/-! ## No sum wraps -/

theorem shift_toNat (n : Word) (k : Nat) : (n >>> k).toNat = n.toNat / 2 ^ k := by
  rw [BitVec.toNat_ushiftRight, Nat.shiftRight_eq_div_pow]

theorem sum_toNat {a b : Word} (h : a.toNat + b.toNat < 2 ^ 32) :
    (a + b).toNat = a.toNat + b.toNat := by
  rw [BitVec.toNat_add, Nat.mod_eq_of_lt h]

theorem start_toNat {n : Word} {j k : Nat} (h : n.toNat / 2 ^ j + n.toNat / 2 ^ k < 2 ^ 32) :
    ((n >>> j) + (n >>> k)).toNat = n.toNat / 2 ^ j + n.toNat / 2 ^ k := by
  rw [← shift_toNat, ← shift_toNat] at h ⊢
  exact sum_toNat h

/-- One step of the series. -/
theorem step_toNat {q : Word} {k : Nat} (h : q.toNat + q.toNat / 2 ^ k < 2 ^ 32) :
    (q + (q >>> k)).toNat = q.toNat + q.toNat / 2 ^ k := by
  rw [← shift_toNat] at h ⊢
  exact sum_toNat h

/-- The series of a start that leaves room for it. -/
theorem series_toNat {q : Word} (h : q.toNat ≤ 3 * 2 ^ 30) :
    let q1 := q + (q >>> 4)
    let q2 := q1 + (q1 >>> 8)
    ((q2 + (q2 >>> 16)).toNat : Int) = series q.toNat := by
  intro q1 q2
  have h1 : q1.toNat = q.toNat + q.toNat / 16 := step_toNat (by omega)
  have h2 : q2.toNat = q1.toNat + q1.toNat / 256 := step_toNat (by omega)
  have h3 : (q2 + (q2 >>> 16)).toNat = q2.toNat + q2.toNat / 65536 := step_toNat (by omega)
  unfold series
  rw [h3, h2, h1]
  push_cast
  rfl

theorem mulu10_eq (n : Word) : mulu10 n = 10#32 * n := by
  unfold mulu10
  bv_omega
/-! ## The quotients -/

/-- What comes up to a number is taken from it, and the rest is as it should be. -/
theorem rest_toNat {a n : Word} (h : a.toNat ≤ n.toNat) : (n - a).toNat = n.toNat - a.toNat :=
  BitVec.toNat_sub_of_le h

theorem divu10_toNat (n : Word) : ((divu10 n).toNat : Int) = wideDivu10 n.toNat := by
  have hn := n.isLt
  obtain ⟨q0, hq0⟩ : ∃ q0, q0 = (n >>> 1) + (n >>> 2) := ⟨_, rfl⟩
  have h0 : q0.toNat = n.toNat / 2 + n.toNat / 4 := by
    rw [hq0]
    exact start_toNat (by omega)
  have hs := @series_toNat q0 (by omega)
  obtain ⟨q3, hq3⟩ : ∃ q3, q3 = (let q1 := q0 + (q0 >>> 4)
    let q2 := q1 + (q1 >>> 8)
    q2 + (q2 >>> 16)) := ⟨_, rfl⟩
  have h3 : (q3.toNat : Int) = series (n.toNat / 2 + n.toNat / 4) := by
    rw [hq3, hs, h0]
    rfl
  obtain ⟨hle, hge⟩ := @series_bounds ((n.toNat : Int) / 2 + (n.toNat : Int) / 4) (by omega)
    (by omega)
  rw [← h3] at hle hge
  have hq : (q3 >>> 3).toNat = q3.toNat / 8 := shift_toNat q3 3
  have hmul : (mulu10 (q3 >>> 3)).toNat = 10 * (q3.toNat / 8) := by
    rw [mulu10_eq, BitVec.toNat_mul, hq]
    exact Nat.mod_eq_of_lt (by show 10 * (q3.toNat / 8) < 2 ^ 32; omega)
  have hr : (n - mulu10 (q3 >>> 3)).toNat = n.toNat - 10 * (q3.toNat / 8) := by
    rw [rest_toNat (by omega), hmul]
  have hr6 : (n - mulu10 (q3 >>> 3) + 6#32).toNat = n.toNat - 10 * (q3.toNat / 8) + 6 := by
    rw [sum_toNat, hr]
    · rfl
    · rw [hr]
      show _ + 6 < 2 ^ 32
      omega
  have he : divu10 n = (q3 >>> 3) + ((n - mulu10 (q3 >>> 3) + 6#32) >>> 4) := by
    unfold divu10
    rw [hq3, hq0]
  have hend : (divu10 n).toNat = q3.toNat / 8 + (n.toNat - 10 * (q3.toNat / 8) + 6) / 16 := by
    have hcorrect : ((n - mulu10 (q3 >>> 3) + 6#32) >>> 4).toNat =
        (n.toNat - 10 * (q3.toNat / 8) + 6) / 16 := by
      rw [← hr6]
      exact shift_toNat _ 4
    rw [he, sum_toNat (by rw [hq, hcorrect]; omega), hq, hcorrect]
  unfold wideDivu10
  rw [hend, ← h3]
  simp only
  omega

theorem divu5_toNat (n : Word) : ((divu5 n).toNat : Int) = wideDivu5 n.toNat := by
  have hn := n.isLt
  obtain ⟨q0, hq0⟩ : ∃ q0, q0 = (n >>> 3) + (n >>> 4) := ⟨_, rfl⟩
  have h0 : q0.toNat = n.toNat / 8 + n.toNat / 16 := by
    rw [hq0]
    exact start_toNat (by omega)
  have hs := @series_toNat q0 (by omega)
  obtain ⟨q3, hq3⟩ : ∃ q3, q3 = (let q1 := q0 + (q0 >>> 4)
    let q2 := q1 + (q1 >>> 8)
    q2 + (q2 >>> 16)) := ⟨_, rfl⟩
  have h3 : (q3.toNat : Int) = series (n.toNat / 8 + n.toNat / 16) := by
    rw [hq3, hs, h0]
    rfl
  obtain ⟨hle, hge⟩ := @series_bounds ((n.toNat : Int) / 8 + (n.toNat : Int) / 16) (by omega)
    (by omega)
  rw [← h3] at hle hge
  have hmul : (q3 * 5#32).toNat = q3.toNat * 5 := by
    rw [BitVec.toNat_mul]
    exact Nat.mod_eq_of_lt (by show q3.toNat * 5 < 2 ^ 32; omega)
  have hr : (n - q3 * 5#32).toNat = n.toNat - q3.toNat * 5 := by
    rw [rest_toNat (by omega), hmul]
  have hr13 : (13#32 * (n - q3 * 5#32)).toNat = 13 * (n.toNat - q3.toNat * 5) := by
    rw [BitVec.toNat_mul, hr]
    exact Nat.mod_eq_of_lt (by show 13 * (n.toNat - q3.toNat * 5) < 2 ^ 32; omega)
  have he : divu5 n = q3 + ((13#32 * (n - q3 * 5#32)) >>> 6) := by
    unfold divu5
    rw [hq3, hq0]
  have hend : (divu5 n).toNat = q3.toNat + 13 * (n.toNat - q3.toNat * 5) / 64 := by
    have hcorrect : ((13#32 * (n - q3 * 5#32)) >>> 6).toNat =
        13 * (n.toNat - q3.toNat * 5) / 64 := by
      rw [← hr13]
      exact shift_toNat _ 6
    rw [he, sum_toNat (by rw [hcorrect]; omega), hcorrect]
  unfold wideDivu5
  rw [hend, ← h3]
  simp only
  omega

theorem divu10_div (n : Word) : (divu10 n).toNat = n.toNat / 10 := by
  have hn := n.isLt
  have h := divu10_toNat n
  rw [wideDivu10_eq (by omega) (by omega)] at h
  omega

theorem divu5_div (n : Word) : (divu5 n).toNat = n.toNat / 5 := by
  have hn := n.isLt
  have h := divu5_toNat n
  rw [wideDivu5_eq (by omega) (by omega)] at h
  omega

/-- The quotients are right, and no step on words differs from the same step on numbers of any
size. -/
theorem divu_right (n : Word) :
    (divu10 n).toNat = n.toNat / 10 ∧ ((divu10 n).toNat : Int) = wideDivu10 n.toNat ∧
    (divu5 n).toNat = n.toNat / 5 ∧ ((divu5 n).toNat : Int) = wideDivu5 n.toNat :=
  ⟨divu10_div n, divu10_toNat n, divu5_div n, divu5_toNat n⟩

end nehcpu.kernel.thumips
