-- Blocks of 2^k numbers that start at a multiple of 2^k, and sets of such blocks where no two
-- halves of one block stand apart. The sets are given by a relation between orders and starts.
import Mathlib.Data.Nat.Bitwise
import Mathlib.Tactic.Ring

namespace nehcpu.dyadic

/-! ## One block -/

theorem and_mask_eq_zero (k x : Nat) : x &&& (2 ^ k - 1) = 0 ↔ 2 ^ k ∣ x := by
  rw [Nat.and_two_pow_sub_one_eq_mod, Nat.dvd_iff_mod_eq_zero]

/-- A block is the lower half or the upper half of the next larger block around it. -/
theorem lower_or_upper {k x : Nat} (h : 2 ^ k ∣ x) :
    2 ^ (k + 1) ∣ x ∨ ∃ y, x = y + 2 ^ k ∧ 2 ^ (k + 1) ∣ y := by
  obtain ⟨m, rfl⟩ := h
  rcases Nat.even_or_odd' m with ⟨c, rfl | rfl⟩
  · exact Or.inl ⟨c, by rw [pow_succ]; ring⟩
  · exact Or.inr ⟨2 ^ (k + 1) * c, by rw [pow_succ]; ring, Dvd.intro c rfl⟩

/-- The other half of a lower half, and of an upper half. -/
theorem xor_lower {k y : Nat} (h : 2 ^ (k + 1) ∣ y) : y ^^^ 2 ^ k = y + 2 ^ k := by
  obtain ⟨m, rfl⟩ := h
  have hlt : 2 ^ k < 2 ^ (k + 1) := Nat.pow_lt_pow_right (by omega) (by omega)
  rw [Nat.two_pow_add_eq_or_of_lt hlt]
  apply Nat.eq_of_testBit_eq
  intro i
  simp only [Nat.testBit_xor, Nat.testBit_or, Nat.testBit_two_pow_mul, Nat.testBit_two_pow]
  by_cases hi : k = i
  · subst hi
    simp
  · simp [hi]

theorem xor_upper {k y : Nat} (h : 2 ^ (k + 1) ∣ y) : (y + 2 ^ k) ^^^ 2 ^ k = y := by
  rw [← xor_lower h, Nat.xor_assoc, Nat.xor_self, Nat.xor_zero]

theorem xor_ne (k x : Nat) : x ^^^ 2 ^ k ≠ x := by
  intro he
  have h2 : 2 ^ k = 0 := by
    rw [← Nat.zero_xor (2 ^ k), ← Nat.xor_self x, Nat.xor_assoc, he, Nat.xor_self]
  exact absurd h2 (Nat.two_pow_pos k).ne'

theorem and_halves {k y : Nat} (h : 2 ^ (k + 1) ∣ y) : y &&& (y + 2 ^ k) = y := by
  obtain ⟨m, rfl⟩ := h
  have hlt : 2 ^ k < 2 ^ (k + 1) := Nat.pow_lt_pow_right (by omega) (by omega)
  rw [Nat.two_pow_add_eq_or_of_lt hlt, Nat.and_or_distrib_left, Nat.and_self]
  apply Nat.eq_of_testBit_eq
  intro i
  simp only [Nat.testBit_or, Nat.testBit_and]
  cases (2 ^ (k + 1) * m).testBit i <;> simp

/-- A block and its other half make up the block from where both have their ones. -/
theorem halves {k x : Nat} (h : 2 ^ k ∣ x) :
    2 ^ (k + 1) ∣ x &&& (x ^^^ 2 ^ k) ∧
      (x = x &&& (x ^^^ 2 ^ k) ∧ x ^^^ 2 ^ k = (x &&& (x ^^^ 2 ^ k)) + 2 ^ k ∨
        x = (x &&& (x ^^^ 2 ^ k)) + 2 ^ k ∧ x ^^^ 2 ^ k = x &&& (x ^^^ 2 ^ k)) := by
  rcases lower_or_upper h with hlow | ⟨y, rfl, hy⟩
  · rw [xor_lower hlow, and_halves hlow]
    exact ⟨hlow, Or.inl ⟨rfl, rfl⟩⟩
  · rw [xor_upper hy, Nat.and_comm, and_halves hy]
    exact ⟨hy, Or.inr ⟨rfl, rfl⟩⟩

/-- The bit of its order tells the upper halves. -/
theorem and_two_pow_eq_zero {k x : Nat} (h : 2 ^ k ∣ x) :
    x &&& 2 ^ k = 0 ↔ 2 ^ (k + 1) ∣ x := by
  rw [Nat.and_two_pow]
  have hpos := Nat.two_pow_pos k
  have hbit : x.testBit k = decide (x / 2 ^ k % 2 = 1) := Nat.testBit_eq_decide_div_mod_eq
  obtain ⟨m, rfl⟩ := h
  rw [Nat.mul_div_cancel_left m hpos] at hbit
  rw [hbit, pow_succ, Nat.mul_dvd_mul_iff_left hpos]
  rcases Nat.mod_two_eq_zero_or_one m with hm | hm
  · simp [hm, Nat.dvd_of_mod_eq_zero hm]
  · simp [hm, Nat.dvd_iff_mod_eq_zero]

/-- Of two blocks that meet, the smaller one lies in the larger one. -/
theorem nested {k j x y : Nat} (hk : k ≤ j) (hx : 2 ^ k ∣ x) (hy : 2 ^ j ∣ y)
    (h1 : y < x + 2 ^ k) (h2 : x < y + 2 ^ j) : y ≤ x ∧ x + 2 ^ k ≤ y + 2 ^ j := by
  obtain ⟨d, rfl⟩ := Nat.exists_eq_add_of_le hk
  obtain ⟨m, rfl⟩ := hx
  obtain ⟨n, rfl⟩ := hy
  have hpos := Nat.two_pow_pos k
  have hsplit : 2 ^ (k + d) = 2 ^ k * 2 ^ d := pow_add 2 k d
  rw [hsplit, mul_assoc] at h1 h2 ⊢
  have e1 : 2 ^ k * m + 2 ^ k = 2 ^ k * (m + 1) := by ring
  have e2 : 2 ^ k * (2 ^ d * n) + 2 ^ k * 2 ^ d = 2 ^ k * (2 ^ d * n + 2 ^ d) := by ring
  rw [e1] at h1
  rw [e2] at h2
  rw [e1, e2]
  have h1 := Nat.lt_of_mul_lt_mul_left h1
  have h2 := Nat.lt_of_mul_lt_mul_left h2
  exact ⟨Nat.mul_le_mul_left _ (by omega), Nat.mul_le_mul_left _ (by omega)⟩

/-! ## Sets of blocks -/

/-- A number stands in one of the blocks. -/
def Covers (F : Nat → Nat → Prop) (i : Nat) : Prop :=
  ∃ k x, F k x ∧ x ≤ i ∧ i < x + 2 ^ k

/-- Blocks up to the order `top` below `size`: no two meet, and no two are the halves of one
block that could be in the set instead. -/
structure Blocks (top size : Nat) (F : Nat → Nat → Prop) : Prop where
  order : ∀ {k x}, F k x → k ≤ top
  aligned : ∀ {k x}, F k x → 2 ^ k ∣ x
  inside : ∀ {k x}, F k x → x + 2 ^ k ≤ size
  apart : ∀ {k x j y i}, F k x → F j y → x ≤ i → i < x + 2 ^ k → y ≤ i → i < y + 2 ^ j →
    k = j ∧ x = y
  merged : ∀ {k x}, F k x → k < top → ¬ F k (x ^^^ 2 ^ k)

variable {top size : Nat} {F G : Nat → Nat → Prop}

theorem Blocks.empty : Blocks top size fun _ _ => False where
  order h := h.elim
  aligned h := h.elim
  inside h := h.elim
  apart h := h.elim
  merged h := h.elim

theorem Blocks.mono (h : Blocks top size F) (hsub : ∀ k x, G k x → F k x) :
    Blocks top size G where
  order hg := h.order (hsub _ _ hg)
  aligned hg := h.aligned (hsub _ _ hg)
  inside hg := h.inside (hsub _ _ hg)
  apart h1 h2 := h.apart (hsub _ _ h1) (hsub _ _ h2)
  merged hg hk hb := h.merged (hsub _ _ hg) hk (hsub _ _ hb)

/-- A block that meets no other one and whose other half is not there can be added. -/
theorem Blocks.add (h : Blocks top size F) {k x : Nat} (hk : k ≤ top) (hx : 2 ^ k ∣ x)
    (hin : x + 2 ^ k ≤ size) (hfree : ∀ i, x ≤ i → i < x + 2 ^ k → ¬ Covers F i)
    (hbuddy : k < top → ¬ F k (x ^^^ 2 ^ k))
    (hG : ∀ j y, G j y ↔ j = k ∧ y = x ∨ F j y) : Blocks top size G where
  order hg := by
    rcases (hG _ _).1 hg with ⟨rfl, -⟩ | hg
    · exact hk
    · exact h.order hg
  aligned hg := by
    rcases (hG _ _).1 hg with ⟨rfl, rfl⟩ | hg
    · exact hx
    · exact h.aligned hg
  inside hg := by
    rcases (hG _ _).1 hg with ⟨rfl, rfl⟩ | hg
    · exact hin
    · exact h.inside hg
  apart h1 h2 i1 i2 i3 i4 := by
    rcases (hG _ _).1 h1 with ⟨rfl, rfl⟩ | h1
    · rcases (hG _ _).1 h2 with ⟨rfl, rfl⟩ | h2
      · exact ⟨rfl, rfl⟩
      · exact absurd ⟨_, _, h2, i3, i4⟩ (hfree _ i1 i2)
    · rcases (hG _ _).1 h2 with ⟨rfl, rfl⟩ | h2
      · exact absurd ⟨_, _, h1, i1, i2⟩ (hfree _ i3 i4)
      · exact h.apart h1 h2 i1 i2 i3 i4
  merged hg hlt hb := by
    rcases (hG _ _).1 hg with ⟨rfl, rfl⟩ | hg
    · rcases (hG _ _).1 hb with ⟨-, he⟩ | hb
      · exact xor_ne _ _ he
      · exact hbuddy hlt hb
    · rcases (hG _ _).1 hb with ⟨rfl, he⟩ | hb
      · apply hbuddy hlt
        rw [← he, Nat.xor_assoc, Nat.xor_self, Nat.xor_zero]
        exact hg
      · exact h.merged hg hlt hb

/-- When everything is covered, each block that could be in the set lies in one that is. -/
theorem Blocks.inside_of_full (h : Blocks top size F) (hfull : ∀ i < size, Covers F i) :
    ∀ k x, k ≤ top → 2 ^ k ∣ x → x + 2 ^ k ≤ size →
      ∃ j y, F j y ∧ k ≤ j ∧ y ≤ x ∧ x + 2 ^ k ≤ y + 2 ^ j := by
  intro k
  induction k with
  | zero =>
    intro x _ _ hin
    obtain ⟨j, y, hf, h1, h2⟩ := hfull x hin
    exact ⟨j, y, hf, Nat.zero_le j, h1, h2⟩
  | succ k ih =>
    intro x hk hx hin
    have hdouble : 2 ^ (k + 1) = 2 ^ k + 2 ^ k := by rw [pow_succ]; ring
    have hpos := Nat.two_pow_pos k
    have hxk : 2 ^ k ∣ x := Nat.dvd_trans (pow_dvd_pow 2 (Nat.le_succ k)) hx
    obtain ⟨j, y, hf, hj, h1, h2⟩ := ih x (by omega) hxk (by omega)
    obtain ⟨i, z, hg, hi, h3, h4⟩ :=
      ih (x + 2 ^ k) (by omega) (Nat.dvd_add hxk (Nat.dvd_refl _)) (by omega)
    -- A larger block around one half has both; else the halves are two blocks of the set.
    rcases Nat.lt_or_ge k j with hkj | hkj
    · obtain ⟨h5, h6⟩ := nested hkj hx (h.aligned hf) (by omega) (by omega)
      exact ⟨j, y, hf, hkj, h5, h6⟩
    · rcases Nat.lt_or_ge k i with hki | hki
      · obtain ⟨h5, h6⟩ := nested hki hx (h.aligned hg) (by omega) (by omega)
        exact ⟨i, z, hg, hki, h5, h6⟩
      · obtain rfl : k = j := by omega
        obtain rfl : k = i := by omega
        obtain rfl : y = x := by omega
        obtain rfl : z = y + 2 ^ k := by omega
        apply absurd hg
        rw [← xor_lower hx]
        exact h.merged hf (by omega)

/-- So there is one such set of blocks at most. -/
theorem Blocks.unique (hF : Blocks top size F) (hG : Blocks top size G)
    (hfullF : ∀ i < size, Covers F i) (hfullG : ∀ i < size, Covers G i) {k x : Nat}
    (h : F k x) : G k x := by
  have hpos := Nat.two_pow_pos k
  obtain ⟨j, y, hg, hkj, h1, h2⟩ :=
    hG.inside_of_full hfullG k x (hF.order h) (hF.aligned h) (hF.inside h)
  obtain ⟨i, z, hf, hji, h3, h4⟩ :=
    hF.inside_of_full hfullF j y (hG.order hg) (hG.aligned hg) (hG.inside hg)
  obtain ⟨rfl, rfl⟩ := hF.apart h hf (Nat.le_refl x) (by omega) (by omega) (by omega)
  obtain rfl : k = j := by omega
  obtain rfl : y = x := by omega
  exact hg

end nehcpu.dyadic
