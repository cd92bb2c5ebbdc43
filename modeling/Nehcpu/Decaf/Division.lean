-- `_Div` and `_Rem` of `intrinsic.c`: long division bit by bit on signed words, and the operands for
-- which it is right.
import Mathlib.Tactic.Ring
import Nehcpu.Cpu.Defines

namespace nehcpu.decaf

open cpu

/-! ## Long division on numbers -/

section

variable (n d i : Nat)

/-- The dividend down to bit `i`, from the dividend down to the bit above. -/
theorem div_two_pow_succ : n / 2 ^ i = 2 * (n / 2 ^ (i + 1)) + n / 2 ^ i % 2 := by
  have hp : n / 2 ^ (i + 1) = n / 2 ^ i / 2 := by
    rw [Nat.pow_succ, Nat.div_div_eq_div_mul]
  rw [hp]
  omega

theorem divide_bit_fits (hd : 0 < d)
    (h : d ≤ 2 * (n / 2 ^ (i + 1) % d) + n / 2 ^ i % 2) :
    n / 2 ^ i / d = 2 * (n / 2 ^ (i + 1) / d) + 1 ∧
      n / 2 ^ i % d = 2 * (n / 2 ^ (i + 1) % d) + n / 2 ^ i % 2 - d := by
  have hn := div_two_pow_succ n i
  have hr := Nat.mod_lt (n / 2 ^ (i + 1)) hd
  have hm := Nat.div_add_mod (n / 2 ^ (i + 1)) d
  rw [Nat.div_mod_unique hd]
  generalize n / 2 ^ (i + 1) / d = q at *
  have hexp : d * (2 * q + 1) = 2 * (d * q) + d := by ring
  rw [hexp]
  omega

theorem divide_bit_short (hd : 0 < d)
    (h : 2 * (n / 2 ^ (i + 1) % d) + n / 2 ^ i % 2 < d) :
    n / 2 ^ i / d = 2 * (n / 2 ^ (i + 1) / d) ∧
      n / 2 ^ i % d = 2 * (n / 2 ^ (i + 1) % d) + n / 2 ^ i % 2 := by
  have hn := div_two_pow_succ n i
  have hm := Nat.div_add_mod (n / 2 ^ (i + 1)) d
  rw [Nat.div_mod_unique hd]
  generalize n / 2 ^ (i + 1) / d = q at *
  have hexp : d * (2 * q) = 2 * (d * q) := by ring
  rw [hexp]
  omega

end

/-! ## The intrinsics -/

/-- One turn of the loop, for bit `i`: the quotient and the remainder after it. The numbers are of
type `int`, so the comparison is signed and `>>` copies the sign. -/
def divideBit (xx yy : Word) (s : Word × Word) (i : Nat) : Word × Word :=
  let remainder := s.2 <<< 1
  let remainder := remainder ||| (xx.sshiftRight i &&& 1#32)
  if yy.sle remainder then (s.1 ||| 1#32 <<< i, remainder - yy) else (s.1, remainder)

/-- The turns for the bits below `i`, the highest first. -/
def divideBits (xx yy : Word) : Nat → Word × Word → Word × Word
  | 0, s => s
  | i + 1, s => divideBits xx yy i (divideBit xx yy s i)

/-- `x > 0 ? x : -x` -/
def magnitude (x : Word) : Word := if (0#32).slt x then x else -x

/-- `quotient` and `remainder` after the loop, which `_Div` and `_Rem` share. -/
def divide (x y : Word) : Word × Word :=
  divideBits (magnitude x) (magnitude y) 32 (0#32, 0#32)

def _Div (x y : Word) : Word :=
  let quotient := (divide x y).1
  if ((0#32).slt x ∧ (0#32).slt y) ∨ (x.slt 0#32 ∧ y.slt 0#32) then quotient else -quotient

def _Rem (x y : Word) : Word :=
  let remainder := (divide x y).2
  if (0#32).slt x then remainder else -remainder

/-! ## One turn -/

/-- The quotient and the remainder of the dividend down to bit `i`. -/
structure Divided (X Y i : Nat) (s : Word × Word) : Prop where
  quotient : s.1.toNat = 2 ^ i * (X / 2 ^ i / Y)
  remainder : s.2.toNat = X / 2 ^ i % Y

theorem bit_toNat (w : Word) {i : Nat} (hi : i < 32) :
    (w.sshiftRight i &&& 1#32).toNat = w.toNat / 2 ^ i % 2 := by
  have hb : (w.sshiftRight i).getLsbD 0 = w.getLsbD i := by
    rw [BitVec.getLsbD_sshiftRight]
    simp [hi]
  rw [BitVec.and_one_eq_setWidth_ofBool_getLsbD, hb, BitVec.getLsbD, Nat.testBit_eq_decide_div_mod_eq]
  have := Nat.mod_two_eq_zero_or_one (w.toNat / 2 ^ i)
  rcases this with h | h <;> simp [h]

/-- The remainder with the next bit of the dividend behind it. -/
theorem shifted_toNat (r w : Word) {i : Nat} (hi : i < 32) (hr : r.toNat < 2 ^ 31) :
    (r <<< 1 ||| (w.sshiftRight i &&& 1#32)).toNat = 2 * r.toNat + w.toNat / 2 ^ i % 2 := by
  have hs : (r <<< 1).toNat = 2 ^ 1 * r.toNat := by
    rw [BitVec.toNat_shiftLeft, Nat.shiftLeft_eq]
    omega
  have hb : w.toNat / 2 ^ i % 2 < 2 ^ 1 := Nat.mod_lt _ (by decide)
  rw [BitVec.toNat_or, bit_toNat w hi, hs, ← Nat.two_pow_add_eq_or_of_lt hb]

/-- The quotient with bit `i` set, which was clear. -/
theorem set_bit_toNat (q : Word) {i k : Nat} (hi : i < 32) (hq : q.toNat = 2 ^ (i + 1) * k) :
    (q ||| 1#32 <<< i).toNat = 2 ^ i * (2 * k + 1) := by
  have hlt : (2 : Nat) ^ i < 2 ^ (i + 1) := Nat.pow_lt_pow_right (by decide) (by omega)
  have hp : (2 : Nat) ^ i < 2 ^ 32 := Nat.pow_lt_pow_right (by decide) hi
  have hone : (1#32 <<< i).toNat = 2 ^ i := by
    rw [BitVec.toNat_shiftLeft, Nat.shiftLeft_eq]
    simpa using hp
  rw [BitVec.toNat_or, hone, hq, ← Nat.two_pow_add_eq_or_of_lt hlt, Nat.pow_succ]
  ring

/-- The turn is right as long as the new remainder is not negative as an `int`. -/
theorem divideBit_divided {xx yy : Word} {s : Word × Word} {i : Nat} (hi : i < 32)
    (hy : 0 < yy.toNat) (hpos : yy.toNat < 2 ^ 31)
    (hfits : 2 * (xx.toNat / 2 ^ (i + 1) % yy.toNat) + xx.toNat / 2 ^ i % 2 < 2 ^ 31)
    (h : Divided xx.toNat yy.toNat (i + 1) s) :
    Divided xx.toNat yy.toNat i (divideBit xx yy s i) := by
  have hr := Nat.mod_lt (xx.toNat / 2 ^ (i + 1)) hy
  have hrem := h.remainder
  have hnew := shifted_toNat s.2 xx hi (by omega)
  rw [hrem] at hnew
  have hcmp : yy.sle (s.2 <<< 1 ||| (xx.sshiftRight i &&& 1#32)) = true ↔
      yy.toNat ≤ 2 * (xx.toNat / 2 ^ (i + 1) % yy.toNat) + xx.toNat / 2 ^ i % 2 := by
    rw [BitVec.sle_iff_toInt_le, BitVec.toInt_eq_toNat_of_lt (by omega),
      BitVec.toInt_eq_toNat_of_lt (by omega), hnew]
    exact Int.ofNat_le
  unfold divideBit
  by_cases hle : yy.toNat ≤ 2 * (xx.toNat / 2 ^ (i + 1) % yy.toNat) + xx.toNat / 2 ^ i % 2
  · have hdiv := divide_bit_fits _ _ _ hy hle
    simp only [hcmp.mpr hle, if_true]
    constructor
    · rw [set_bit_toNat s.1 hi h.quotient, hdiv.1]
    · rw [BitVec.toNat_sub_of_le (by rw [BitVec.le_def]; omega), hnew, hdiv.2]
  · have hdiv := divide_bit_short _ _ _ hy (Nat.lt_of_not_le hle)
    rw [if_neg (fun hc => hle (hcmp.mp hc))]
    constructor
    · rw [hdiv.1, h.quotient, Nat.pow_succ]
      ring
    · rw [hnew, hdiv.2]

/-! ## The loop -/

/-- The least `int`, which is its own negation. -/
abbrev INT_MIN : Word := 0x80000000#32

theorem divideBits_divided {xx yy : Word} (hy : 0 < yy.toNat) (hpos : yy.toNat < 2 ^ 31)
    (hfits : xx.toNat < 2 ^ 31 ∨ yy.toNat ≤ 2 ^ 30) {i : Nat} {s : Word × Word} (hi : i ≤ 32)
    (h : Divided xx.toNat yy.toNat i s) :
    Divided xx.toNat yy.toNat 0 (divideBits xx yy i s) := by
  induction i generalizing s with
  | zero => exact h
  | succ i ih =>
    apply ih (Nat.le_of_succ_le hi)
    apply divideBit_divided hi hy hpos _ h
    have hr := Nat.mod_lt (xx.toNat / 2 ^ (i + 1)) hy
    have hle := Nat.mod_le (xx.toNat / 2 ^ (i + 1)) yy.toNat
    have hn := div_two_pow_succ xx.toNat i
    have hx := Nat.div_le_self xx.toNat (2 ^ i)
    rcases hfits with hx' | hy'
    · omega
    · omega

/-- The loop divides, for a divisor that is positive as an `int`. -/
theorem divide_ends {x y : Word} (hy : 0 < (magnitude y).toNat)
    (hpos : (magnitude y).toNat < 2 ^ 31)
    (hfits : (magnitude x).toNat < 2 ^ 31 ∨ (magnitude y).toNat ≤ 2 ^ 30) :
    (divide x y).1.toNat = (magnitude x).toNat / (magnitude y).toNat ∧
      (divide x y).2.toNat = (magnitude x).toNat % (magnitude y).toNat := by
  have hzero : (magnitude x).toNat / 2 ^ 32 = 0 := Nat.div_eq_of_lt (magnitude x).isLt
  have hstart : Divided (magnitude x).toNat (magnitude y).toNat 32 (0#32, 0#32) := by
    constructor
    · rw [hzero, Nat.zero_div]
      rfl
    · rw [hzero, Nat.zero_mod]
      rfl
  have hend := divideBits_divided hy hpos hfits (Nat.le_refl 32) hstart
  have hq := hend.quotient
  have hr := hend.remainder
  simp only [Nat.pow_zero, Nat.div_one, Nat.one_mul] at hq hr
  exact ⟨hq, hr⟩

/-- Nothing is subtracted from the least `int` by a divisor above `2 ^ 30`: above the last bit the
remainder is too small, and at the last one it is negative. -/
theorem divideBits_none {yy : Word} (hy : 2 ^ 30 < yy.toNat) (hpos : yy.toNat < 2 ^ 31)
    {i : Nat} {s : Word × Word} (hi : i ≤ 32) (hs : s.2.toNat = INT_MIN.toNat / 2 ^ i) :
    (divideBits INT_MIN yy i s).1 = s.1 := by
  induction i generalizing s with
  | zero => rfl
  | succ i ih =>
    have hsmall : s.2.toNat ≤ 2 ^ 30 := by
      rw [hs, Nat.pow_succ', ← Nat.div_div_eq_div_mul]
      exact Nat.div_le_self _ _
    have hnew := shifted_toNat s.2 INT_MIN hi (by omega)
    rw [hs, ← div_two_pow_succ] at hnew
    have hcmp : ¬ yy.sle (s.2 <<< 1 ||| (BitVec.sshiftRight INT_MIN i &&& 1#32)) = true := by
      rw [BitVec.sle_iff_toInt_le, BitVec.toInt_eq_toNat_of_lt (by omega)]
      rw [BitVec.toInt_eq_toNat_cond, hnew]
      cases i with
      | zero =>
        simp
        omega
      | succ i =>
        have hle : INT_MIN.toNat / 2 ^ (i + 1) ≤ 2 ^ 30 := by
          rw [Nat.pow_succ', ← Nat.div_div_eq_div_mul]
          exact Nat.div_le_self _ _
        rw [if_pos (by omega)]
        omega
    have hturn : divideBit INT_MIN yy s i =
        (s.1, s.2 <<< 1 ||| (BitVec.sshiftRight INT_MIN i &&& 1#32)) := if_neg hcmp
    rw [divideBits, hturn, ih (Nat.le_of_succ_le hi) hnew]

/-- By the least `int` every turn subtracts, since no `int` is below it. -/
theorem divideBits_all (xx : Word) {i : Nat} (hi : i ≤ 32) (s : Word × Word) :
    (divideBits xx INT_MIN i s).1 = s.1 ||| BitVec.ofNat 32 (2 ^ i - 1) := by
  induction i generalizing s with
  | zero => simp [divideBits]
  | succ i ih =>
    have hcmp (w : Word) : INT_MIN.sle w = true := by
      rw [BitVec.sle_iff_toInt_le]
      exact BitVec.le_toInt w
    have hbits : 1#32 <<< i ||| BitVec.ofNat 32 (2 ^ i - 1) = BitVec.ofNat 32 (2 ^ (i + 1) - 1) := by
      have hpos : 0 < 2 ^ i := Nat.two_pow_pos i
      have hlt : 2 ^ i < 2 ^ 32 := Nat.pow_lt_pow_right (by decide) hi
      have hle : (2 : Nat) ^ (i + 1) ≤ 2 ^ 32 := Nat.pow_le_pow_right (by decide) hi
      apply BitVec.eq_of_toNat_eq
      rw [BitVec.toNat_or, BitVec.toNat_shiftLeft, BitVec.toNat_ofNat, BitVec.toNat_ofNat,
        BitVec.toNat_ofNat, Nat.shiftLeft_eq, Nat.mod_eq_of_lt (show 2 ^ i - 1 < 2 ^ 32 by omega),
        Nat.mod_eq_of_lt (show 2 ^ (i + 1) - 1 < 2 ^ 32 by omega)]
      have hor := Nat.two_pow_add_eq_or_of_lt (show 2 ^ i - 1 < 2 ^ i by omega) 1
      simp only [Nat.mul_one] at hor
      rw [show 1 % 2 ^ 32 = 1 from rfl, Nat.one_mul, Nat.mod_eq_of_lt hlt, ← hor, Nat.pow_succ]
      omega
    rw [divideBits, ih (Nat.le_of_succ_le hi)]
    simp only [divideBit, hcmp, if_true]
    rw [BitVec.or_assoc, hbits]

theorem divide_by_min (x : Word) : (divide x INT_MIN).1 = -1#32 := by
  have h := divideBits_all (magnitude x) (Nat.le_refl 32) (0#32, 0#32)
  exact h

/-! ## The signs -/

section

variable (x y : Word)

theorem magnitude_toNat : (magnitude x).toNat = x.toInt.natAbs := by
  have hx := BitVec.toInt_eq_toNat_cond x
  have hlt := x.isLt
  unfold magnitude
  by_cases h : (0#32).slt x = true
  · rw [if_pos h]
    rw [BitVec.slt_iff_toInt_lt, BitVec.toInt_zero] at h
    split at hx <;> omega
  · rw [if_neg h, BitVec.toNat_neg]
    rw [BitVec.slt_iff_toInt_lt, BitVec.toInt_zero] at h
    split at hx <;> omega

end

/-- The quotient truncated toward zero, from the quotient of the magnitudes. -/
theorem tdiv_of_natAbs (a b : Int) :
    a.tdiv b = if (0 < a ∧ 0 < b) ∨ (a < 0 ∧ b < 0) then ((a.natAbs / b.natAbs : Nat) : Int)
      else -((a.natAbs / b.natAbs : Nat) : Int) := by
  obtain ⟨n, rfl | rfl⟩ := a.eq_nat_or_neg <;> obtain ⟨m, rfl | rfl⟩ := b.eq_nat_or_neg <;>
    rcases Nat.eq_zero_or_pos n with rfl | hn <;> rcases Nat.eq_zero_or_pos m with rfl | hm <;>
    simp [Int.neg_tdiv, Int.tdiv_neg, *] <;> omega

/-- The remainder, which has the sign of the dividend. -/
theorem tmod_of_natAbs (a b : Int) :
    a.tmod b = if 0 < a then ((a.natAbs % b.natAbs : Nat) : Int)
      else -((a.natAbs % b.natAbs : Nat) : Int) := by
  have habs : (a.natAbs % b.natAbs : Nat) = (a.tmod b).natAbs := (Int.natAbs_tmod a b).symm
  rw [habs]
  split
  · have hnonneg := Int.tmod_nonneg b (show 0 ≤ a by omega)
    omega
  · have hneg := Int.tmod_nonneg b (show 0 ≤ -a by omega)
    rw [Int.neg_tmod] at hneg
    omega

/-! ## Which operands are divided right -/

/-- The quotient is truncated toward zero, the remainder has the sign of the dividend, and
together they give the dividend back, all modulo `2 ^ 32`. -/
structure DividesRight (x y : Word) : Prop where
  quotient : _Div x y = BitVec.ofInt 32 (x.toInt.tdiv y.toInt)
  remainder : _Rem x y = BitVec.ofInt 32 (x.toInt.tmod y.toInt)
  together : x = y * _Div x y + _Rem x y

section

variable {x y : Word}

theorem ofInt_natCast_toNat (w : Word) {n : Nat} (h : w.toNat = n) : BitVec.ofInt 32 (n : Int) = w := by
  rw [← h, BitVec.ofInt_natCast, BitVec.ofNat_toNat, BitVec.setWidth_eq]

theorem _Div_of_divide (h : (divide x y).1.toNat = x.toInt.natAbs / y.toInt.natAbs) :
    _Div x y = BitVec.ofInt 32 (x.toInt.tdiv y.toInt) := by
  have hw := ofInt_natCast_toNat _ h
  unfold _Div
  rw [tdiv_of_natAbs]
  simp only [BitVec.slt_iff_toInt_lt, BitVec.toInt_zero]
  split
  · exact hw.symm
  · rw [BitVec.ofInt_neg, hw]

theorem _Rem_of_divide (h : (divide x y).2.toNat = x.toInt.natAbs % y.toInt.natAbs) :
    _Rem x y = BitVec.ofInt 32 (x.toInt.tmod y.toInt) := by
  have hw := ofInt_natCast_toNat _ h
  unfold _Rem
  rw [tmod_of_natAbs]
  simp only [BitVec.slt_iff_toInt_lt, BitVec.toInt_zero]
  split
  · exact hw.symm
  · rw [BitVec.ofInt_neg, hw]

theorem dividesRight_of_divide
    (hq : (divide x y).1.toNat = x.toInt.natAbs / y.toInt.natAbs)
    (hr : (divide x y).2.toNat = x.toInt.natAbs % y.toInt.natAbs) : DividesRight x y := by
  have hdiv := _Div_of_divide hq
  have hrem := _Rem_of_divide hr
  refine ⟨hdiv, hrem, ?_⟩
  rw [hdiv, hrem]
  calc x = BitVec.ofInt 32 x.toInt := BitVec.ofInt_toInt.symm
    _ = BitVec.ofInt 32 (y.toInt * x.toInt.tdiv y.toInt + x.toInt.tmod y.toInt) := by
      rw [Int.mul_tdiv_add_tmod]
    _ = y * BitVec.ofInt 32 (x.toInt.tdiv y.toInt) + BitVec.ofInt 32 (x.toInt.tmod y.toInt) := by
      rw [BitVec.ofInt_add, BitVec.ofInt_mul, BitVec.ofInt_toInt]

theorem toInt_ne_min (h : y ≠ INT_MIN) : y.toInt.natAbs < 2 ^ 31 := by
  have hne : y.toNat ≠ INT_MIN.toNat := fun he => h (BitVec.eq_of_toNat_eq he)
  have hy := BitVec.toInt_eq_toNat_cond y
  have hlt := y.isLt
  have hmin : INT_MIN.toNat = 2 ^ 31 := rfl
  split at hy <;> omega

end

/-- By the least `int` each quotient comes out as 1 or as -1. -/
theorem _Div_by_min (x : Word) : _Div x INT_MIN = if x.slt 0#32 then -1#32 else 1#32 := by
  have hpos : (0#32).slt INT_MIN = false := by decide
  have hneg : INT_MIN.slt 0#32 = true := by decide
  unfold _Div
  simp only [divide_by_min, hpos, hneg, Bool.false_eq_true, and_false, and_true, false_or,
    BitVec.neg_neg]

/-- It is never right there. -/
theorem not_dividesRight_by_min (x : Word) : ¬ DividesRight x INT_MIN := by
  intro h
  have hq := h.quotient
  rw [_Div_by_min] at hq
  by_cases hx : x = INT_MIN
  · subst hx
    revert hq
    decide
  · have hlt : x.toInt.natAbs < INT_MIN.toInt.natAbs := toInt_ne_min hx
    rw [tdiv_of_natAbs, Nat.div_eq_of_lt hlt] at hq
    simp only [Int.natCast_zero, Int.neg_zero, ite_self] at hq
    split at hq
    · revert hq
      decide
    · revert hq
      decide

/-- The quotient of the least `int` by a number above `2 ^ 30` comes out as 0. -/
theorem not_dividesRight_of_min {y : Word} (hy : 2 ^ 30 < y.toInt.natAbs)
    (hmin : y.toInt.natAbs < 2 ^ 31) : ¬ DividesRight INT_MIN y := by
  intro h
  have hq := h.quotient
  have hloop : (divide INT_MIN y).1 = 0#32 := by
    have hmag : magnitude INT_MIN = INT_MIN := by decide
    rw [← magnitude_toNat] at hy hmin
    unfold divide
    rw [hmag, divideBits_none hy hmin (Nat.le_refl 32) (by decide)]
  have hdiv : _Div INT_MIN y = 0#32 := by
    unfold _Div
    simp only [hloop, BitVec.neg_zero, ite_self]
  have hone : INT_MIN.toInt.natAbs / y.toInt.natAbs = 1 := by
    have habs : INT_MIN.toInt.natAbs = 2 ^ 31 := by decide
    rw [habs]
    exact Nat.div_eq_of_lt_le (by omega) (by omega)
  rw [hdiv, tdiv_of_natAbs, hone] at hq
  split at hq
  · revert hq
    decide
  · revert hq
    decide

/-- The divisions that go right: those by another number than the least `int`, and of the least
`int` only by numbers up to `2 ^ 30`. -/
theorem dividesRight_iff (x y : Word) (hy : y ≠ 0#32) :
    DividesRight x y ↔ y ≠ INT_MIN ∧ (x ≠ INT_MIN ∨ y.toInt.natAbs ≤ 2 ^ 30) := by
  have hynz : 0 < y.toInt.natAbs := by
    rw [Int.natAbs_pos]
    intro h
    exact hy (BitVec.eq_of_toInt_eq h)
  constructor
  · intro h
    have hmin : y ≠ INT_MIN := by
      rintro rfl
      exact not_dividesRight_by_min x h
    refine ⟨hmin, ?_⟩
    by_contra hc
    simp only [not_or, not_not, Nat.not_le] at hc
    obtain ⟨rfl, hlarge⟩ := hc
    exact not_dividesRight_of_min hlarge (toInt_ne_min hmin) h
  · rintro ⟨hmin, hx⟩
    have hpos := toInt_ne_min hmin
    have hfits : x.toInt.natAbs < 2 ^ 31 ∨ y.toInt.natAbs ≤ 2 ^ 30 := hx.imp_left toInt_ne_min
    have hend := divide_ends (x := x) (y := y)
    simp only [magnitude_toNat] at hend
    have hd := hend hynz hpos hfits
    exact dividesRight_of_divide hd.1 hd.2

theorem dividesRight_seven :
    DividesRight 7#32 (-2#32) ↔ -2#32 ≠ INT_MIN ∧ (7#32 ≠ INT_MIN ∨ (-2#32).toInt.natAbs ≤ 2 ^ 30) :=
  dividesRight_iff 7#32 (-2#32) (by decide)

/-- `INT_MIN / INT_MAX` comes out as 0. -/
theorem not_dividesRight : ¬ ∀ x y : Word, y ≠ 0#32 → DividesRight x y := by
  intro h
  exact not_dividesRight_of_min (by decide) (by decide) (h INT_MIN 0x7FFFFFFF#32 (by decide))

end nehcpu.decaf
