-- Byte buffers as functions of the offset: what lies between two offsets, what a copy into the
-- buffer leaves, and numbers in little-endian order. Also a file as pages of one size.
import Mathlib.Data.List.GetD
import Mathlib.Tactic.Ring

namespace nehcpu.buffer

abbrev Byte := BitVec 8

abbrev Buffer := Nat → Byte

def Buffer.zero : Buffer := fun _ => 0

/-- The `len` bytes from `off` on. -/
def slice (b : Buffer) (off len : Nat) : List Byte := (List.range len).map fun i => b (off + i)

/-- The buffer with `bs` copied in at `off`. -/
def patch (b : Buffer) (off : Nat) (bs : List Byte) : Buffer := fun i =>
  if off ≤ i ∧ i < off + bs.length then bs.getD (i - off) 0 else b i

/-! ## Slices and patches -/

section

variable (b : Buffer) (off : Nat) (bs : List Byte)

@[simp] theorem slice_length (len : Nat) : (slice b off len).length = len := by simp [slice]

theorem slice_getD (len i : Nat) (h : i < len) : (slice b off len).getD i 0 = b (off + i) := by
  simp [slice, List.getD, h]

theorem slice_congr {b b' : Buffer} {off off' len : Nat}
    (h : ∀ i, i < len → b (off + i) = b' (off' + i)) : slice b off len = slice b' off' len := by
  apply List.map_congr_left
  intro i hi
  exact h i (List.mem_range.1 hi)

theorem slice_append (m n : Nat) :
    slice b off (m + n) = slice b off m ++ slice b (off + m) n := by
  simp [slice, List.range_add, Nat.add_assoc]

theorem patch_in {i : Nat} (h : off ≤ i) (h' : i < off + bs.length) :
    patch b off bs i = bs.getD (i - off) 0 := by simp [patch, h, h']

theorem patch_out {i : Nat} (h : i < off ∨ off + bs.length ≤ i) : patch b off bs i = b i := by
  apply if_neg
  omega

theorem slice_patch : slice (patch b off bs) off bs.length = bs := by
  apply List.ext_getElem (by simp)
  intro i hi hi'
  simp [slice, patch, List.getD, hi']

theorem slice_patch_of_apart {off' len : Nat} (h : off' + len ≤ off ∨ off + bs.length ≤ off') :
    slice (patch b off bs) off' len = slice b off' len := by
  apply slice_congr
  intro i hi
  apply patch_out
  omega

/-- One copy after the other at the place where the first one ends is one copy. -/
theorem patch_patch (cs : List Byte) :
    patch (patch b off bs) (off + bs.length) cs = patch b off (bs ++ cs) := by
  funext i
  unfold patch
  rw [List.length_append]
  by_cases h1 : off + bs.length ≤ i ∧ i < off + bs.length + cs.length
  · rw [if_pos h1, if_pos (by omega), List.getD_append_right _ _ _ _ (by omega)]
    congr 1
    omega
  · rw [if_neg h1]
    by_cases h2 : off ≤ i ∧ i < off + bs.length
    · rw [if_pos h2, if_pos (by omega), List.getD_append _ _ _ _ (by omega)]
    · rw [if_neg h2, if_neg (by omega)]

@[simp] theorem patch_nil : patch b off [] = b := by
  funext i
  apply patch_out
  simp only [List.length_nil]
  omega

end

/-! ## Numbers in little-endian order -/

/-- The low `k` bytes of a number, the lowest first. -/
def leBytes : Nat → Nat → List Byte
  | 0, _ => []
  | k + 1, n => BitVec.ofNat 8 n :: leBytes k (n / 256)

def leNat (bs : List Byte) : Nat := bs.foldr (fun b n => b.toNat + 256 * n) 0

@[simp] theorem leBytes_length (k n : Nat) : (leBytes k n).length = k := by
  induction k generalizing n with
  | zero => rfl
  | succ k ih => simp [leBytes, ih]

theorem leNat_leBytes (k n : Nat) : leNat (leBytes k n) = n % 256 ^ k := by
  induction k generalizing n with
  | zero => simp [leBytes, leNat, Nat.mod_one]
  | succ k ih =>
    calc leNat (leBytes (k + 1) n)
        = n % 256 + 256 * leNat (leBytes k (n / 256)) := rfl
      _ = n % 256 + 256 * (n / 256 % 256 ^ k) := by rw [ih]
      _ = n % 256 ^ (k + 1) := by rw [← Nat.mod_mul, ← pow_succ']

/-- The number of `k` bytes that stands at an offset. -/
def leAt (k : Nat) (b : Buffer) (off : Nat) : Nat := leNat (slice b off k)

theorem leAt_congr {k : Nat} {b b' : Buffer} {off : Nat}
    (h : ∀ i, off ≤ i → i < off + k → b i = b' i) : leAt k b off = leAt k b' off := by
  unfold leAt
  rw [slice_congr]
  intro i hi
  exact h _ (by omega) (by omega)

theorem leAt_patch (k : Nat) (b : Buffer) (off n : Nat) :
    leAt k (patch b off (leBytes k n)) off = n % 256 ^ k := by
  have h := slice_patch b off (leBytes k n)
  rw [leBytes_length] at h
  rw [leAt, h, leNat_leBytes]

theorem leAt_patch_of_apart {k : Nat} {b : Buffer} {off off' : Nat} {bs : List Byte}
    (h : off' + k ≤ off ∨ off + bs.length ≤ off') :
    leAt k (patch b off bs) off' = leAt k b off' := by
  rw [leAt, slice_patch_of_apart _ _ _ h, leAt]

@[simp] theorem leNat_zeros (k : Nat) : leNat (List.replicate k 0) = 0 := by
  induction k with
  | zero => rfl
  | succ k ih =>
    calc leNat (List.replicate (k + 1) 0)
        = 0 + 256 * leNat (List.replicate k 0) := rfl
      _ = 0 := by rw [ih]

@[simp] theorem leAt_zero (k off : Nat) : leAt k Buffer.zero off = 0 := by
  have h : slice Buffer.zero off k = List.replicate k 0 := by
    apply List.ext_getElem (by simp)
    intro i _ _
    simp [slice, Buffer.zero]
  rw [leAt, h, leNat_zeros]

/-! ## Byte arrays -/

/-- The list with `bs` written over it from `off` on; it may grow. -/
def overwrite (content : List Byte) (off : Nat) (bs : List Byte) : List Byte :=
  content.take off ++ bs ++ content.drop (off + bs.length)

theorem overwrite_length {content : List Byte} {off : Nat} (bs : List Byte)
    (h : off ≤ content.length) :
    (overwrite content off bs).length = max content.length (off + bs.length) := by
  simp [overwrite]
  omega

theorem overwrite_getD {content : List Byte} {off : Nat} (bs : List Byte)
    (h : off ≤ content.length) :
    (fun i => (overwrite content off bs).getD i 0) =
      patch (fun i => content.getD i 0) off bs := by
  have htake : (content.take off).length = off := by simp [h]
  funext i
  unfold overwrite
  rw [List.append_assoc]
  by_cases h1 : i < off
  · rw [List.getD_append _ _ _ _ (by omega), patch_out _ _ _ (Or.inl h1)]
    simp [List.getD, h1]
  · rw [List.getD_append_right _ _ _ _ (by omega), htake]
    by_cases h2 : i < off + bs.length
    · rw [List.getD_append _ _ _ _ (by omega), patch_in _ _ _ (by omega) h2]
    · rw [List.getD_append_right _ _ _ _ (by omega), patch_out _ _ _ (Or.inr (by omega))]
      simp only [List.getD, List.getElem?_drop]
      congr 2
      omega

theorem slice_getD_eq (content : List Byte) (off len : Nat) (h : off + len ≤ content.length) :
    slice (fun i => content.getD i 0) off len = (content.drop off).take len := by
  apply List.ext_getElem
  · simp
    omega
  · intro i hi _
    rw [slice_length] at hi
    simp [slice, List.getD, show off + i < content.length by omega]

theorem getD_append_zeros (content : List Byte) (n i : Nat) :
    (content ++ List.replicate n 0).getD i 0 = content.getD i 0 := by
  by_cases h : i < content.length
  · rw [List.getD_append _ _ _ _ h]
  · rw [List.getD_append_right _ _ _ _ (by omega), List.getD_eq_default content 0 (by omega)]
    simp [List.getD, List.getElem?_replicate]
    split <;> rfl

end nehcpu.buffer
