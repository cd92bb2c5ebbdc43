-- What the bitmap, the allocation of blocks and the accesses to the device do, one rule for each.
import Mathlib.Data.Finset.Card
import Mathlib.Data.Finset.Range
import Nehcpu.Kernel.Sfs

namespace nehcpu.kernel.fs

open Function nehcpu.command nehcpu.command.Cmd nehcpu.buffer

/-! ## The bits -/

def bitmap.bit (bm : bitmap) (i : Nat) : Bool := (bm.map (i / WORD_BITS)).getLsbD (i % WORD_BITS)

def bitmap.freeSet (bm : bitmap) : Finset Nat := (Finset.range bm.nbits).filter fun i => bm.bit i

def bitmap.take (bm : bitmap) (i : Nat) : bitmap :=
  let word := bm.map (i / WORD_BITS) ^^^ mask (i % WORD_BITS)
  { bm with map := update bm.map (i / WORD_BITS) word }

def bitmap.give (bm : bitmap) (i : Nat) : bitmap :=
  let word := bm.map (i / WORD_BITS) ||| mask (i % WORD_BITS)
  { bm with map := update bm.map (i / WORD_BITS) word }

theorem mask_getLsbD {offset : Nat} (h : offset < WORD_BITS) (k : Nat) :
    (mask offset).getLsbD k = decide (k = offset) := by
  unfold WORD_BITS at h
  by_cases hk : k = offset
  · subst hk
    simp [mask, h]
  · simp only [mask, BitVec.getLsbD_shiftLeft, hk, decide_false]
    by_cases hlt : k < offset
    · simp [hlt]
    · have h1 : k - offset ≠ 0 := by omega
      simp [BitVec.getLsbD_one, h1]

theorem and_mask_ne {offset : Nat} (h : offset < WORD_BITS) (w : BitVec 32) :
    ((w &&& mask offset) != 0#32) = w.getLsbD offset := by
  have hbit : (w &&& mask offset).getLsbD offset = w.getLsbD offset := by
    rw [BitVec.getLsbD_and, mask_getLsbD h]
    simp
  cases hw : w.getLsbD offset with
  | true =>
    rw [bne_iff_ne]
    intro h0
    rw [h0, hw] at hbit
    simp at hbit
  | false =>
    rw [bne_eq_false_iff_eq]
    apply BitVec.eq_of_getLsbD_eq
    intro k _
    rw [BitVec.getLsbD_and, mask_getLsbD h]
    by_cases hk : k = offset
    · subst hk
      simp [hw]
    · simp [hk]

theorem word_bits_pos (i : Nat) : i % WORD_BITS < WORD_BITS := Nat.mod_lt _ (by decide)

theorem bitmap.test_eq (bm : bitmap) (i : Nat) :
    ((bm.map (i / WORD_BITS) &&& mask (i % WORD_BITS)) != 0#32) = bm.bit i :=
  and_mask_ne (word_bits_pos i) _

/-- Two bits are the same where the words and the offsets are. -/
theorem bit_index_eq {i j : Nat} (hq : j / WORD_BITS = i / WORD_BITS)
    (hr : j % WORD_BITS = i % WORD_BITS) : j = i := by
  rw [← Nat.div_add_mod j WORD_BITS, ← Nat.div_add_mod i WORD_BITS, hq, hr]

theorem bitmap.bit_take {bm : bitmap} {i : Nat} (h : bm.bit i = true) (j : Nat) :
    (bm.take i).bit j = (bm.bit j && decide (j ≠ i)) := by
  unfold bitmap.bit bitmap.take at *
  by_cases hq : j / WORD_BITS = i / WORD_BITS
  · simp only [hq, update_self, BitVec.getLsbD_xor, mask_getLsbD (word_bits_pos i)]
    by_cases hr : j % WORD_BITS = i % WORD_BITS
    · simp [bit_index_eq hq hr, h]
    · have hne : j ≠ i := fun he => hr (by rw [he])
      simp [hr, hne]
  · have hne : j ≠ i := fun he => hq (by rw [he])
    simp [update_of_ne hq, hne]

theorem bitmap.bit_give (bm : bitmap) (i j : Nat) :
    (bm.give i).bit j = (bm.bit j || decide (j = i)) := by
  unfold bitmap.bit bitmap.give
  by_cases hq : j / WORD_BITS = i / WORD_BITS
  · simp only [hq, update_self, BitVec.getLsbD_or, mask_getLsbD (word_bits_pos i)]
    by_cases hr : j % WORD_BITS = i % WORD_BITS
    · simp [bit_index_eq hq hr]
    · have hne : j ≠ i := fun he => hr (by rw [he])
      simp [hr, hne]
  · have hne : j ≠ i := fun he => hq (by rw [he])
    simp [update_of_ne hq, hne]

theorem bitmap.give_take {bm : bitmap} {i : Nat} (h : bm.bit i = true) :
    (bm.take i).give i = bm := by
  have hw : ∀ w : BitVec 32, w.getLsbD (i % WORD_BITS) = true →
      w ^^^ mask (i % WORD_BITS) ||| mask (i % WORD_BITS) = w := by
    intro w hb
    apply BitVec.eq_of_getLsbD_eq
    intro k _
    rw [BitVec.getLsbD_or, BitVec.getLsbD_xor, mask_getLsbD (word_bits_pos i)]
    by_cases hk : k = i % WORD_BITS
    · subst hk
      simp [hb]
    · simp [hk]
  simp [bitmap.give, bitmap.take, hw _ h]

theorem bitmap.mem_freeSet (bm : bitmap) (i : Nat) :
    i ∈ bm.freeSet ↔ i < bm.nbits ∧ bm.bit i = true := by
  simp [bitmap.freeSet]

theorem bitmap.freeSet_take {bm : bitmap} {i : Nat} (h : i ∈ bm.freeSet) :
    (bm.take i).freeSet = bm.freeSet.erase i := by
  have hb := ((bm.mem_freeSet i).1 h).2
  ext j
  rw [bitmap.mem_freeSet, bitmap.bit_take hb, Finset.mem_erase, bitmap.mem_freeSet]
  simp only [bitmap.take, Bool.and_eq_true, decide_eq_true_eq]
  tauto

theorem bitmap.freeSet_give {bm : bitmap} {i : Nat} (h : i < bm.nbits) :
    (bm.give i).freeSet = insert i bm.freeSet := by
  ext j
  rw [bitmap.mem_freeSet, bitmap.bit_give, Finset.mem_insert, bitmap.mem_freeSet]
  simp only [bitmap.give, Bool.or_eq_true, decide_eq_true_eq]
  constructor
  · rintro ⟨hj, hb | hb⟩
    · exact Or.inr ⟨hj, hb⟩
    · exact Or.inl hb
  · rintro (rfl | ⟨hj, hb⟩)
    · exact ⟨h, Or.inr rfl⟩
    · exact ⟨hj, Or.inl hb⟩

/-! ## Allocation and release -/

def Call.free (c : Call) : Finset Nat := c.sfs.freemap.freeSet

theorem Call.mem_free (c : Call) (i : Nat) :
    i ∈ c.free ↔ i < c.sfs.freemap.nbits ∧ c.sfs.freemap.bit i = true :=
  c.sfs.freemap.mem_freeSet i

/-- The free blocks are blocks of the disk, not the first one, and are counted. -/
structure FreeOk (c : Call) : Prop where
  nbits : c.sfs.freemap.nbits = c.sfs.freemap.nwords * WORD_BITS
  fits : c.sfs.super.blocks ≤ c.sfs.freemap.nbits
  narrow : c.sfs.super.blocks ≤ 2 ^ 32
  within : ∀ b ∈ c.free, b ≠ 0 ∧ b < c.sfs.super.blocks
  count : c.sfs.super.unused_blocks = c.free.card

def Call.setMap (c : Call) (bm : bitmap) : Call := { c with sfs := { c.sfs with freemap := bm } }

def Call.setDisk (c : Call) (b : Nat) (buf : Buffer) : Call :=
  { c with sfs := { c.sfs with disk := update c.sfs.disk b buf } }

/-- What a successful `sfs_block_alloc` leaves. -/
def Call.take (c : Call) (b : Nat) : Call :=
  { c with sfs :=
    { super := { c.sfs.super with unused_blocks := c.sfs.super.unused_blocks - 1 }
      super_dirty := true
      freemap := c.sfs.freemap.take b
      disk := update c.sfs.disk b Buffer.zero } }

/-- What `sfs_block_free` leaves. -/
def Call.give (c : Call) (b : Nat) : Call :=
  { c with sfs :=
    { super := { c.sfs.super with unused_blocks := c.sfs.super.unused_blocks + 1 }
      super_dirty := true
      freemap := c.sfs.freemap.give b
      disk := c.sfs.disk } }

section

variable {c : Call} {b : Nat}

theorem FreeOk.take (h : FreeOk c) (hb : b ∈ c.free) :
    FreeOk (c.take b) ∧ (c.take b).free = c.free.erase b ∧
      (c.take b).sfs.super.unused_blocks + 1 = c.sfs.super.unused_blocks := by
  have hf : (c.take b).free = c.free.erase b := bitmap.freeSet_take hb
  have hpos : 0 < c.free.card := Finset.card_pos.2 ⟨b, hb⟩
  have hu : (c.take b).sfs.super.unused_blocks + 1 = c.sfs.super.unused_blocks := by
    have hc := h.count
    simp only [Call.take]
    omega
  refine ⟨⟨h.nbits, h.fits, h.narrow, ?_, ?_⟩, hf, hu⟩
  · intro a ha
    apply h.within a
    rw [hf] at ha
    exact Finset.mem_of_mem_erase ha
  · have hcard := Finset.card_erase_of_mem hb
    rw [← hf] at hcard
    have hc := h.count
    omega

theorem FreeOk.give (h : FreeOk c) (hb : b ∉ c.free) (h0 : b ≠ 0)
    (hlt : b < c.sfs.super.blocks) :
    FreeOk (c.give b) ∧ (c.give b).free = insert b c.free := by
  have hf : (c.give b).free = insert b c.free :=
    bitmap.freeSet_give (Nat.lt_of_lt_of_le hlt h.fits)
  refine ⟨⟨h.nbits, h.fits, h.narrow, ?_, ?_⟩, hf⟩
  · intro a ha
    rw [hf] at ha
    rcases Finset.mem_insert.1 ha with rfl | ha
    · exact ⟨h0, hlt⟩
    · exact h.within a ha
  · have hcard := Finset.card_insert_of_notMem hb
    rw [← hf] at hcard
    rw [hcard, ← h.count]
    rfl

end

section

variable {X : Prop} {c : Call}

theorem wp_bitmap_alloc (h : FreeOk c) :
    Wp bitmap_alloc (fun b t => b ∈ c.free ∧ t = c.setMap (c.sfs.freemap.take b))
      (fun _ t => t = c ∧ c.free = ∅) X c := by
  unfold bitmap_alloc
  simp only [wp_bind, wp_get]
  cases hix : (List.range c.sfs.freemap.nwords).find? fun ix => c.sfs.freemap.map ix != 0#32 with
  | none =>
    simp only [wp_throw, true_and]
    apply Finset.eq_empty_of_forall_notMem
    intro b hb
    obtain ⟨hlt, hbit⟩ := (c.mem_free b).1 hb
    have hword : b / WORD_BITS < c.sfs.freemap.nwords :=
      Nat.div_lt_of_lt_mul (by rw [Nat.mul_comm, ← h.nbits]; exact hlt)
    have h0 := List.find?_eq_none.1 hix _ (List.mem_range.2 hword)
    simp only [bne_iff_ne, ne_eq, not_not] at h0
    simp [bitmap.bit, h0] at hbit
  | some ix =>
    have hword := List.mem_range.1 (List.mem_of_find?_eq_some hix)
    have hne := List.find?_some hix
    simp only [bne_iff_ne, ne_eq] at hne
    cases hoff : (List.range WORD_BITS).find? fun offset =>
        (c.sfs.freemap.map ix &&& mask offset) != 0#32 with
    | none =>
      -- a word that is not zero has a bit, so the assertion in the loop holds
      exfalso
      apply hne
      apply BitVec.eq_of_getLsbD_eq
      intro k hk
      have h0 := List.find?_eq_none.1 hoff k (List.mem_range.2 hk)
      rw [and_mask_ne hk] at h0
      simpa using h0
    | some offset =>
      have hlt := List.mem_range.1 (List.mem_of_find?_eq_some hoff)
      have hbit := List.find?_some hoff
      rw [and_mask_ne hlt] at hbit
      have hdiv : (ix * WORD_BITS + offset) / WORD_BITS = ix := by
        rw [Nat.mul_comm, Nat.mul_add_div (by decide), Nat.div_eq_of_lt hlt, Nat.add_zero]
      have hmod : (ix * WORD_BITS + offset) % WORD_BITS = offset := by
        rw [Nat.mul_comm, Nat.mul_add_mod, Nat.mod_eq_of_lt hlt]
      simp only [wp_bind, wp_modify, wp_pure, hoff]
      constructor
      · apply (c.mem_free _).2
        constructor
        · rw [h.nbits]
          calc ix * WORD_BITS + offset < ix * WORD_BITS + WORD_BITS := by omega
            _ = (ix + 1) * WORD_BITS := by rw [Nat.succ_mul]
            _ ≤ c.sfs.freemap.nwords * WORD_BITS := Nat.mul_le_mul_right _ hword
        · simpa only [bitmap.bit, hdiv, hmod] using hbit
      · simp only [Call.setMap, bitmap.take, hdiv, hmod]

theorem wp_assert_inuse {Q : Unit → Call → Prop} {E : Int → Call → Prop} {b : Nat}
    (h : FreeOk c) (h0 : b ≠ 0) (hlt : b < c.sfs.super.blocks) (hb : b ∉ c.free) (hq : Q () c) :
    Wp (assert_inuse b) Q E X c := by
  have hn := Nat.lt_of_lt_of_le hlt h.fits
  have hbit : c.sfs.freemap.bit b = false := by
    have hn' := fun hh => hb ((c.mem_free b).2 ⟨hn, hh⟩)
    simpa using hn'
  unfold assert_inuse sfs_block_inuse bitmap_test
  simp only [wp_bind, wp_get, wp_check, wp_pure, bitmap.test_eq, hbit]
  rw [if_pos ⟨h0, hlt⟩, if_pos hn]
  exact hq

/-- Where the clearing does not fail, only a full disk makes the allocation fail. -/
theorem wp_block_alloc (h : FreeOk c) :
    Wp (sfs_block_alloc 0) (fun b t => b ∈ c.free ∧ t = c.take b)
      (fun _ t => t = c ∧ c.free = ∅) X c := by
  unfold sfs_block_alloc
  rw [wp_bind]
  apply Wp.mono (wp_bitmap_alloc h) _ (fun _ _ he => he) id
  rintro b _ ⟨hb, rfl⟩
  have hpos : 0 < c.sfs.super.unused_blocks := by
    rw [h.count]
    exact Finset.card_pos.2 ⟨b, hb⟩
  have hw := h.within b hb
  have hn := Nat.lt_of_lt_of_le hw.2 h.fits
  have hbit : (c.sfs.freemap.take b).bit b = false := by
    rw [bitmap.bit_take ((c.mem_free b).1 hb).2]
    simp
  simp only [wp_bind, wp_get, wp_check, wp_modify, wp_pure, wp_ite, assert_inuse, sfs_block_inuse,
    bitmap_test, sfs_clear_block, wblock_nolock, bitmap.test_eq, Call.setMap, hbit]
  have hm : b < (c.sfs.freemap.take b).nbits := hn
  rw [if_pos hpos, if_pos hw, if_pos hm, if_pos (Bool.not_false), if_pos hw,
    if_neg (fun hf => hf rfl)]
  exact ⟨hb, rfl⟩

theorem wp_block_free {Q : Unit → Call → Prop} {E : Int → Call → Prop} {b : Nat}
    (h : FreeOk c) (h0 : b ≠ 0) (hlt : b < c.sfs.super.blocks) (hb : b ∉ c.free)
    (hq : Q () (c.give b)) : Wp (sfs_block_free b) Q E X c := by
  unfold sfs_block_free
  rw [wp_bind]
  apply wp_assert_inuse h h0 hlt hb
  have hn := Nat.lt_of_lt_of_le hlt h.fits
  have hbit := bitmap.test_eq c.sfs.freemap b
  rw [show c.sfs.freemap.bit b = false by simpa using fun hh => hb ((c.mem_free b).2 ⟨hn, hh⟩),
    bne_eq_false_iff_eq] at hbit
  simp only [wp_bind, bitmap_free, wp_get, wp_check, wp_modify]
  rw [if_pos hn, if_pos hbit]
  exact hq

/-! ## The device -/

theorem wp_rbuf {Q : List Byte → Call → Prop} {E : Int → Call → Prop} {ret : Int}
    {len b offset : Nat} (hb : b ≠ 0 ∧ b < c.sfs.super.blocks)
    (ho : offset < SFS_BLKSIZE ∧ offset + len ≤ SFS_BLKSIZE)
    (hq : ret = 0 → Q (slice (c.sfs.disk b) offset len) c) (he : ret ≠ 0 → E ret c) :
    Wp (sfs_rbuf ret len b offset) Q E X c := by
  unfold sfs_rbuf rblock_nolock
  simp only [wp_bind, wp_get, wp_check, wp_ite, wp_throw, wp_pure]
  rw [if_pos ho, if_pos hb]
  by_cases hr : ret = 0
  · rw [if_neg (fun hn => hn hr)]
    exact hq hr
  · rw [if_pos hr]
    exact he hr

theorem wp_wbuf {Q : Unit → Call → Prop} {E : Int → Call → Prop} {rret wret : Int}
    {bs : List Byte} {b offset : Nat} (hb : b ≠ 0 ∧ b < c.sfs.super.blocks)
    (ho : offset < SFS_BLKSIZE ∧ offset + bs.length ≤ SFS_BLKSIZE)
    (hq : rret = 0 → wret = 0 → Q () (c.setDisk b (patch (c.sfs.disk b) offset bs)))
    (he : ∀ e, rret ≠ 0 ∨ wret ≠ 0 → E e c) :
    Wp (sfs_wbuf rret wret bs b offset) Q E X c := by
  unfold sfs_wbuf rblock_nolock wblock_nolock
  simp only [wp_bind, wp_get, wp_check, wp_ite, wp_throw, wp_pure, wp_modify]
  rw [if_pos ho, if_pos hb]
  by_cases hr : rret = 0
  · rw [if_neg (fun hn => hn hr), if_pos hb]
    by_cases hw : wret = 0
    · rw [if_neg (fun hn => hn hw)]
      exact hq hr hw
    · rw [if_pos hw]
      exact he _ (Or.inr hw)
  · rw [if_pos hr]
    exact he _ (Or.inl hr)

end

end nehcpu.kernel.fs
