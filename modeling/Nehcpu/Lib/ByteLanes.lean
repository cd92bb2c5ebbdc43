-- A word of 32 bits as four byte lanes, and a memory of such words as a memory of
-- bytes, the lowest byte first. Nothing here knows what the memory is.
import Mathlib.Tactic.Common
import Mathlib.Data.BitVec

namespace nehcpu.lanes

/-! ## Lanes -/

/-- The byte of a word at an offset. -/
def lane (w : BitVec 32) (k : BitVec 2) : BitVec 8 := w.extractLsb' (8 * k.toNat) 8

/-- The word with these bytes. -/
def ofLanes (f : BitVec 2 → BitVec 8) : BitVec 32 := f 3#2 ++ f 2#2 ++ f 1#2 ++ f 0#2

/-- The word `old` with the selected bytes of `new`. -/
def merge (sel : BitVec 4) (new old : BitVec 32) : BitVec 32 :=
  ofLanes fun k => if sel.getLsbD k.toNat then lane new k else lane old k

theorem offset_cases (k : BitVec 2) : k = 0#2 ∨ k = 1#2 ∨ k = 2#2 ∨ k = 3#2 := by
  revert k
  decide

/-- The four bytes of a concatenation. -/
theorem extract_bytes (a b c d : BitVec 8) :
    (a ++ b ++ c ++ d).extractLsb' 0 8 = d ∧ (a ++ b ++ c ++ d).extractLsb' 8 8 = c ∧
      (a ++ b ++ c ++ d).extractLsb' 16 8 = b ∧ (a ++ b ++ c ++ d).extractLsb' 24 8 = a := by
  refine ⟨?_, ?_, ?_, ?_⟩
  · exact BitVec.extractLsb'_append_eq_right
  · rw [BitVec.extractLsb'_append_eq_of_le (by decide)]
    exact BitVec.extractLsb'_append_eq_right
  · rw [BitVec.extractLsb'_append_eq_of_le (by decide),
      BitVec.extractLsb'_append_eq_of_le (by decide)]
    exact BitVec.extractLsb'_append_eq_right
  · rw [BitVec.extractLsb'_append_eq_of_le (by decide),
      BitVec.extractLsb'_append_eq_of_le (by decide)]
    exact BitVec.extractLsb'_append_eq_left

@[simp] theorem lane_ofLanes (f : BitVec 2 → BitVec 8) (k : BitVec 2) :
    lane (ofLanes f) k = f k := by
  obtain ⟨h0, h1, h2, h3⟩ := extract_bytes (f 3#2) (f 2#2) (f 1#2) (f 0#2)
  rcases offset_cases k with rfl | rfl | rfl | rfl
  · exact h0
  · exact h1
  · exact h2
  · exact h3

@[simp] theorem lane_merge (sel : BitVec 4) (new old : BitVec 32) (k : BitVec 2) :
    lane (merge sel new old) k = if sel.getLsbD k.toNat then lane new k else lane old k :=
  lane_ofLanes _ k

theorem getLsbD_lane (w : BitVec 32) (k : BitVec 2) (i : Nat) (hi : i < 8) :
    (lane w k).getLsbD i = w.getLsbD (8 * k.toNat + i) := by
  unfold lane
  rw [BitVec.getLsbD_extractLsb']
  simp [hi]

/-- A word is its four bytes. -/
theorem eq_of_lanes {a b : BitVec 32} (h : ∀ k, lane a k = lane b k) : a = b := by
  apply BitVec.eq_of_getLsbD_eq
  intro i hi
  have hk : (BitVec.ofNat 2 (i / 8)).toNat = i / 8 := by
    rw [BitVec.toNat_ofNat]
    omega
  have hm : i % 8 < 8 := Nat.mod_lt _ (by decide)
  have hi' : 8 * (BitVec.ofNat 2 (i / 8)).toNat + i % 8 = i := by
    rw [hk]
    omega
  have hb := congrArg (fun v : BitVec 8 => v.getLsbD (i % 8)) (h (BitVec.ofNat 2 (i / 8)))
  simp only [getLsbD_lane _ _ _ hm, hi'] at hb
  exact hb

theorem ofLanes_lane (w : BitVec 32) : ofLanes (lane w) = w :=
  eq_of_lanes fun k => lane_ofLanes _ k

theorem merge_all (new old : BitVec 32) : merge 0b1111#4 new old = new := by
  apply eq_of_lanes
  intro k
  rw [lane_merge]
  rcases offset_cases k with rfl | rfl | rfl | rfl <;> rfl

/-! ## A memory of words as a memory of bytes -/

variable {n : Nat}

/-- The byte at an address: its low two bits pick the lane. -/
def bytesOf (words : BitVec n → BitVec 32) (a : BitVec (n + 2)) : BitVec 8 :=
  lane (words (a.extractLsb' 2 n)) (a.extractLsb' 0 2)

/-- The address of a byte of a word. -/
def byteAddr (i : BitVec n) (k : BitVec 2) : BitVec (n + 2) := i ++ k

@[simp] theorem byteAddr_word (i : BitVec n) (k : BitVec 2) :
    (byteAddr i k).extractLsb' 2 n = i := BitVec.extractLsb'_append_eq_left

@[simp] theorem byteAddr_offset (i : BitVec n) (k : BitVec 2) :
    (byteAddr i k).extractLsb' 0 2 = k := BitVec.extractLsb'_append_eq_right

theorem byteAddr_eq (a : BitVec (n + 2)) :
    byteAddr (a.extractLsb' 2 n) (a.extractLsb' 0 2) = a := by
  have h : byteAddr (a.extractLsb' 2 n) (a.extractLsb' 0 2) = a.extractLsb' 0 (n + 2) :=
    BitVec.extractLsb'_append_extractLsb'_eq_extractLsb' rfl
  rw [h]
  exact BitVec.extractLsb'_eq_self

@[simp] theorem bytesOf_byteAddr (words : BitVec n → BitVec 32) (i : BitVec n) (k : BitVec 2) :
    bytesOf words (byteAddr i k) = lane (words i) k := by
  unfold bytesOf
  rw [byteAddr_word, byteAddr_offset]

/-- One word written. -/
def setWord (words : BitVec n → BitVec 32) (i : BitVec n) (w : BitVec 32) :
    BitVec n → BitVec 32 := fun j => if j = i then w else words j

/-- The selected bytes of `data` written to the word `i` of a memory of bytes. -/
def storeBytes (mem : BitVec (n + 2) → BitVec 8) (i : BitVec n) (sel : BitVec 4)
    (data : BitVec 32) : BitVec (n + 2) → BitVec 8 := fun a =>
  if a.extractLsb' 2 n = i ∧ sel.getLsbD (a.extractLsb' 0 2).toNat = true then
    lane data (a.extractLsb' 0 2)
  else mem a

/-- Merging into a word of the memory stores the selected bytes, and no other. -/
theorem bytesOf_setWord_merge (words : BitVec n → BitVec 32) (i : BitVec n) (sel : BitVec 4)
    (data : BitVec 32) :
    bytesOf (setWord words i (merge sel data (words i))) =
      storeBytes (bytesOf words) i sel data := by
  funext a
  unfold bytesOf setWord storeBytes
  by_cases hi : a.extractLsb' 2 n = i
  · rw [if_pos hi, lane_merge, hi]
    by_cases hs : sel.getLsbD (a.extractLsb' 0 2).toNat = true
    · rw [if_pos hs, if_pos ⟨rfl, hs⟩]
    · rw [if_neg hs, if_neg fun h => hs h.2]
      simp only [hi]
  · rw [if_neg hi, if_neg fun h => hi h.1]

theorem toNat_byteAddr (i : BitVec n) (k : BitVec 2) :
    (byteAddr i k).toNat = 4 * i.toNat + k.toNat := by
  refine (BitVec.toNat_append _ _).trans ?_
  rw [← Nat.shiftLeft_add_eq_or_of_lt k.isLt, Nat.shiftLeft_eq]
  omega

/-- Within a word the address counts the lanes. -/
theorem byteAddr_add (i : BitVec n) (k : BitVec 2) (j : Nat) (h : k.toNat + j < 4) :
    byteAddr i k + BitVec.ofNat (n + 2) j = byteAddr i (k + BitVec.ofNat 2 j) := by
  apply BitVec.eq_of_toNat_eq
  have hi := i.isLt
  have hp : 2 ^ (n + 2) = 2 ^ n * 4 := Nat.pow_add 2 n 2
  have hj : (BitVec.ofNat (n + 2) j).toNat = j := by
    rw [BitVec.toNat_ofNat]
    exact Nat.mod_eq_of_lt (by omega)
  have hk : (k + BitVec.ofNat 2 j).toNat = k.toNat + j := by
    rw [BitVec.toNat_add, BitVec.toNat_ofNat]
    omega
  rw [BitVec.toNat_add, toNat_byteAddr, toNat_byteAddr, hj, hk, Nat.mod_eq_of_lt]
  · omega
  · omega

theorem byteAddr_zero_add (i : BitVec n) (j : Nat) (h : j < 4) :
    byteAddr i 0#2 + BitVec.ofNat (n + 2) j = byteAddr i (BitVec.ofNat 2 j) := by
  rw [byteAddr_add i 0#2 j (by simpa using h), BitVec.zero_add]

theorem byteAddr_inj {i j : BitVec n} {k l : BitVec 2} :
    byteAddr i k = byteAddr j l ↔ i = j ∧ k = l := by
  constructor
  · intro h
    have hw := congrArg (fun a => a.extractLsb' 2 n) h
    have ho := congrArg (fun a => a.extractLsb' 0 2) h
    simp only [byteAddr_word, byteAddr_offset] at hw ho
    exact ⟨hw, ho⟩
  · rintro ⟨rfl, rfl⟩
    rfl

/-! ## A memory of bytes, the lowest byte first -/

/-- The two bytes from an address up. -/
def loadHalf (mem : BitVec (n + 2) → BitVec 8) (a : BitVec (n + 2)) : BitVec 16 :=
  mem (a + 1) ++ mem a

/-- The four bytes from an address up. -/
def loadWord (mem : BitVec (n + 2) → BitVec 8) (a : BitVec (n + 2)) : BitVec 32 :=
  mem (a + 3) ++ mem (a + 2) ++ mem (a + 1) ++ mem a

def storeByte (mem : BitVec (n + 2) → BitVec 8) (a : BitVec (n + 2)) (b : BitVec 8) :
    BitVec (n + 2) → BitVec 8 := fun x => if x = a then b else mem x

/-- A word stored byte by byte. -/
def storeWord (mem : BitVec (n + 2) → BitVec 8) (a : BitVec (n + 2)) (w : BitVec 32) :
    BitVec (n + 2) → BitVec 8 :=
  storeByte (storeByte (storeByte (storeByte mem a (lane w 0)) (a + 1) (lane w 1))
    (a + 2) (lane w 2)) (a + 3) (lane w 3)

/-- The halfword at the even lane `k`. -/
theorem loadHalf_bytesOf (words : BitVec n → BitVec 32) (i : BitVec n) (k : BitVec 2)
    (hk : k.toNat + 1 < 4) :
    loadHalf (bytesOf words) (byteAddr i k) = lane (words i) (k + 1) ++ lane (words i) k := by
  have h := byteAddr_add i k 1 hk
  unfold loadHalf
  rw [bytesOf_byteAddr]
  exact congrArg (· ++ _) ((congrArg _ h).trans (bytesOf_byteAddr _ _ _))

theorem loadWord_bytesOf (words : BitVec n → BitVec 32) (i : BitVec n) :
    loadWord (bytesOf words) (byteAddr i 0#2) = words i := by
  have h (j : Nat) (hj : j < 4) :
      bytesOf words (byteAddr i 0#2 + BitVec.ofNat (n + 2) j) =
        lane (words i) (BitVec.ofNat 2 j) := by
    rw [byteAddr_zero_add i j hj, bytesOf_byteAddr]
  have h0 : bytesOf words (byteAddr i 0#2) = lane (words i) 0#2 := bytesOf_byteAddr _ _ _
  have h1 := h 1 (by decide)
  have h2 := h 2 (by decide)
  have h3 := h 3 (by decide)
  refine Eq.trans ?_ (ofLanes_lane (words i))
  unfold loadWord ofLanes
  exact congrArg₂ _ (congrArg₂ _ (congrArg₂ _ h3 h2) h1) h0

/-- A byte stored is the selected lane of a word stored, whatever the word's other lanes. -/
theorem storeBytes_one (mem : BitVec (n + 2) → BitVec 8) (i : BitVec n) (k : BitVec 2)
    (sel : BitVec 4) (data : BitVec 32)
    (hs : ∀ l : BitVec 2, sel.getLsbD l.toNat = true ↔ l = k) :
    storeBytes mem i sel data = storeByte mem (byteAddr i k) (lane data k) := by
  funext x
  rw [← byteAddr_eq x]
  unfold storeBytes storeByte
  rw [byteAddr_word, byteAddr_offset]
  by_cases h : byteAddr (x.extractLsb' 2 n) (x.extractLsb' 0 2) = byteAddr i k
  · obtain ⟨hi, hk⟩ := byteAddr_inj.1 h
    rw [if_pos h, if_pos ⟨hi, (hs _).2 hk⟩, hk]
  · rw [if_neg h, if_neg]
    rintro ⟨hi, hsel⟩
    exact h (byteAddr_inj.2 ⟨hi, (hs _).1 hsel⟩)

theorem storeBytes_all (mem : BitVec (n + 2) → BitVec 8) (i : BitVec n) (data : BitVec 32) :
    storeBytes mem i 0b1111#4 data = storeWord mem (byteAddr i 0#2) data := by
  have h1 : byteAddr i 0#2 + 1 = byteAddr i 1#2 := byteAddr_zero_add i 1 (by decide)
  have h2 : byteAddr i 0#2 + 2 = byteAddr i 2#2 := byteAddr_zero_add i 2 (by decide)
  have h3 : byteAddr i 0#2 + 3 = byteAddr i 3#2 := byteAddr_zero_add i 3 (by decide)
  unfold storeWord
  rw [h1, h2, h3]
  funext x
  rw [← byteAddr_eq x]
  unfold storeBytes storeByte
  rw [byteAddr_word, byteAddr_offset]
  simp only [byteAddr_inj]
  by_cases hi : x.extractLsb' 2 n = i
  · rcases offset_cases (x.extractLsb' 0 2) with hk | hk | hk | hk <;>
      rw [hk] <;> simp [hi]
  · simp [hi]

end nehcpu.lanes
