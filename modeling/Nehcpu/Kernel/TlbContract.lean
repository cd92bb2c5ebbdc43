-- The contract between the refill of the kernel and the translation of the CPU: the
-- entry that a refill installs translates both pages as their page table entries
-- say, and the other addresses keep their translation.
import Nehcpu.Kernel.Tlb

namespace nehcpu.kernel

open cpu

/-- What the translation `d` of the address `va` has to say for its page table entry. -/
structure PageTranslates (pte : pte_t) (va : Word) (d : Vir2phy) : Prop where
  frame : ptep_present pte = true →
    d.physical_addr = PTE_ADDR pte - KERNBASE + (va &&& 0xFFF#32)
  absent : d.tlb_miss = true ∨ d.V = false ↔ ptep_present pte = false
  readOnly : ptep_present pte = true → (d.D = false ↔ ptep_s_write pte = false)

/-- Two translations that the CPU cannot tell apart: after a miss it looks at nothing else. -/
structure SameTranslation (d d' : Vir2phy) : Prop where
  segment : d'.is_kseg0_kseg1 = d.is_kseg0_kseg1
  miss : d'.tlb_miss = d.tlb_miss
  physical : d.is_kseg0_kseg1 = true ∨ d.tlb_miss = false → d'.physical_addr = d.physical_addr
  flags : d.tlb_miss = false → d'.V = d.V ∧ d'.D = d.D

/-! ## Addresses by number -/

theorem toNat_vpn2Of (va : Word) : (vpn2Of va).toNat = va.toNat / 8192 := by
  unfold vpn2Of
  rw [BitVec.extractLsb'_toNat, Nat.shiftRight_eq_div_pow]
  have := va.isLt
  omega

theorem PTX_eq (va : Word) : PTX va = va.toNat / 4096 % 1024 := by
  unfold PTX
  rw [BitVec.extractLsb'_toNat, Nat.shiftRight_eq_div_pow]

theorem bit12_iff (va : Word) : getElem va 12 bit12_lt = true ↔ va.toNat / 4096 % 2 = 1 := by
  rw [← BitVec.getLsbD_eq_getElem (by decide), BitVec.getLsbD, Nat.testBit_eq_decide_div_mod_eq]
  exact decide_eq_true_iff

theorem and_bit12 (va : Word) : va &&& (1#32 <<< 12) ≠ 0#32 ↔ getElem va 12 bit12_lt = true := by
  have hp : (1#32 <<< 12 : Word) = BitVec.twoPow 32 12 := rfl
  rw [hp, BitVec.and_twoPow, BitVec.getLsbD_eq_getElem (by decide)]
  cases va[12]
  · simp
  · simp
    decide

/-- The page table entry that stands in the entry words for an address of the pair. -/
theorem refill_half (bad va : Word) (table : Nat → pte_t) (h : vpn2Of va = vpn2Of bad) :
    (if (getElem va 12 bit12_lt) then (tlb_refill bad table (PTX bad)).low1
      else (tlb_refill bad table (PTX bad)).low0) = pte2tlblow (table (PTX va)) := by
  have hv := congrArg BitVec.toNat h
  rw [toNat_vpn2Of, toNat_vpn2Of] at hv
  unfold tlb_refill
  simp only [and_bit12, bit12_iff, PTX_eq]
  by_cases hva : va.toNat / 4096 % 2 = 1
  · rw [if_pos hva]
    refine congrArg (fun i => pte2tlblow (table i)) ?_
    split <;> omega
  · rw [if_neg hva]
    refine congrArg (fun i => pte2tlblow (table i)) ?_
    split <;> omega

/-- `PTE_ADDR` clears the offset. -/
theorem toNat_PTE_ADDR (pte : pte_t) : (PTE_ADDR pte).toNat = pte.toNat / 4096 * 4096 := by
  have hm : (0xFFF#32 : Word) = (BitVec.allOnes 12).setWidth 32 := rfl
  have h : PTE_ADDR pte = (pte >>> 12) <<< 12 := by
    apply BitVec.eq_of_getLsbD_eq
    intro i hi
    unfold PTE_ADDR
    rw [hm, BitVec.getLsbD_and, BitVec.getLsbD_not, BitVec.getLsbD_setWidth,
      BitVec.getLsbD_allOnes, BitVec.getLsbD_shiftLeft, BitVec.getLsbD_ushiftRight]
    by_cases hlow : i < 12
    · simp [hlow]
    · have hsub : 12 + (i - 12) = i := by omega
      simp [hlow, hi, hsub]
  rw [h, BitVec.toNat_shiftLeft, BitVec.toNat_ushiftRight, Nat.shiftLeft_eq,
    Nat.shiftRight_eq_div_pow]
  have := pte.isLt
  omega

theorem toNat_offset (va : Word) : (va &&& 0xFFF#32).toNat = va.toNat % 4096 := by
  rw [BitVec.toNat_and]
  exact Nat.and_two_pow_sub_one_eq_mod _ 12

/-- The page number of a frame and the offset in the page make the physical address. -/
theorem frame_append (pte : pte_t) (va : Word) :
    (pte - KERNBASE).extractLsb' 12 20 ++ va.extractLsb' 0 12 =
      PTE_ADDR pte - KERNBASE + (va &&& 0xFFF#32) := by
  apply BitVec.eq_of_toNat_eq
  refine (BitVec.toNat_append _ _).trans ?_
  rw [← Nat.shiftLeft_add_eq_or_of_lt (BitVec.isLt _), Nat.shiftLeft_eq, BitVec.extractLsb'_toNat,
    BitVec.extractLsb'_toNat, Nat.shiftRight_eq_div_pow, Nat.shiftRight_eq_div_pow,
    BitVec.toNat_add, toNat_offset, BitVec.toNat_sub, BitVec.toNat_sub, toNat_PTE_ADDR]
  have := pte.isLt
  simp only [BitVec.toNat_ofNat]
  omega

/-! ## The pair -/

/-- The upper bits of an address pick its segment. -/
theorem segment_of_vpn2 {va bad : Word} (h : vpn2Of va = vpn2Of bad) :
    is_kseg0_kseg1 va = is_kseg0_kseg1 bad := by
  have hseg (x : Word) : x.extractLsb' 29 3 = (vpn2Of x).extractLsb' 16 3 := by
    apply BitVec.eq_of_getLsbD_eq
    intro i hi
    have hlt : 16 + i < 19 := by omega
    have hadd : 13 + (16 + i) = 29 + i := by omega
    simp [vpn2Of, hi, hlt, hadd]
  unfold is_kseg0_kseg1
  rw [hseg, hseg, h]

/-- The entry of a refill is found for both pages of its pair. -/
theorem vpn2_refill (bad : Word) (table : Nat → pte_t) (pte : Nat) :
    vpn2 (tlb_refill bad table pte).entry = vpn2Of bad := by
  unfold EntryWords.entry tlb_refill
  rw [vpn2_packEntry]
  unfold vpn2Of
  rw [BitVec.extractLsb'_and]
  have hm : THUMIPS_TLB_ENTRYH_VPN2_MASK.extractLsb' 13 19 = BitVec.allOnes 19 := by decide
  rw [hm, BitVec.and_allOnes]

/-- The half of a TLB entry that an address picks says what the page table entry says. -/
structure EntryAgrees (e : TlbEntry) (va : Word) (pte : pte_t) : Prop where
  valid : validOf e (getElem va 12 bit12_lt) = ptep_present pte
  frame : ptep_present pte = true →
    pfnOf e (getElem va 12 bit12_lt) = (pte - KERNBASE).extractLsb' 12 20
  dirty : ptep_present pte = true → dirtyOf e (getElem va 12 bit12_lt) = ptep_s_write pte

theorem entryAgrees_refill {bad va : Word} (table : Nat → pte_t) (h : vpn2Of va = vpn2Of bad) :
    EntryAgrees (tlb_refill bad table (PTX bad)).entry va (table (PTX va)) := by
  have hhalf := refill_half bad va table h
  unfold EntryWords.entry
  refine ⟨?_, ?_, ?_⟩
  · rw [validOf_packEntry, hhalf, pte2tlblow_valid]
  · intro hp
    rw [pfnOf_packEntry, hhalf, pte2tlblow_pfn hp]
  · intro hp
    rw [dirtyOf_packEntry, hhalf, pte2tlblow_dirty hp]

/-- A TLB whose entry for a page agrees with the page table entry translates the page as it
says. -/
theorem pageTranslates_of_agrees {tlb : Tlb} {held_index : BitVec 4} {va : Word} {pte : pte_t}
    (hseg : is_kseg0_kseg1 va = false)
    (hv : vpn2 (tlb (hit_index held_index tlb va)) = vpn2Of va)
    (he : EntryAgrees (tlb (hit_index held_index tlb va)) va pte) :
    PageTranslates pte va (vir2phy held_index tlb va) := by
  have hmiss : tlb_miss tlb va = false := by
    rw [← Bool.not_eq_true, tlb_miss_iff]
    intro h
    exact h _ hv
  refine ⟨?_, ?_, ?_⟩
  · intro hp
    unfold vir2phy
    simp only [hseg, Bool.false_eq_true, ↓reduceIte]
    rw [he.frame hp]
    exact frame_append _ _
  · unfold vir2phy
    simp only [hmiss, he.valid, Bool.false_eq_true, false_or]
  · intro hp
    unfold vir2phy
    simp only [he.dirty hp]

/-! ## The other addresses -/

/-- An address that neither the new entry nor the replaced one is for keeps its translation. -/
theorem sameTranslation_of_other {tlb : Tlb} {w : TlbWrite} {va : Word}
    (held_index held_index' : BitVec 4) (hnew : vpn2 w.tlb_write_entry ≠ vpn2Of va)
    (hold : vpn2 (tlb w.tlb_write_index) ≠ vpn2Of va) :
    SameTranslation (vir2phy held_index tlb va) (vir2phy held_index' (tlb.next w) va) := by
  have hentry (i : BitVec 4) (hi : vpn2 (tlb i) = vpn2Of va) : tlb.next w i = tlb i := by
    rw [Tlb.next_apply]
    refine if_neg ?_
    rintro ⟨-, rfl⟩
    exact hold hi
  have hhit : hit (tlb.next w) va = hit tlb va := by
    funext i
    unfold hit
    rw [Tlb.next_apply]
    split
    · next h => rw [h.2, beq_false_of_ne hnew, beq_false_of_ne hold]
    · rfl
  have hmiss : tlb_miss (tlb.next w) va = tlb_miss tlb va := by
    unfold tlb_miss
    rw [hhit]
  have hsame (h : tlb_miss tlb va = false) :
      tlb.next w (hit_index held_index' (tlb.next w) va) = tlb (hit_index held_index tlb va) := by
    have hex : ∃ i, vpn2 (tlb i) = vpn2Of va := by
      by_contra hn
      rw [(tlb_miss_iff tlb va).2 (not_exists.1 hn)] at h
      cases h
    have hidx : hit_index held_index' (tlb.next w) va = hit_index held_index tlb va := by
      unfold hit_index
      rw [hhit]
      rcases hf : tlbIndices.find? (hit tlb va) with _ | j
      · obtain ⟨i, hi⟩ := hex
        exact absurd (beq_iff_eq.2 hi) (List.find?_eq_none.1 hf i (mem_tlbIndices i))
      · rfl
    rw [hidx]
    exact hentry _ (hit_index_spec held_index tlb va hex)
  refine ⟨rfl, hmiss, ?_, ?_⟩
  · intro h
    unfold vir2phy at h ⊢
    simp only at h ⊢
    by_cases hseg : is_kseg0_kseg1 va = true
    · rw [if_pos hseg, if_pos hseg]
    · rw [if_neg hseg, if_neg hseg, hsame (h.resolve_left hseg)]
  · intro h
    unfold vir2phy
    simp only
    rw [hsame h]
    exact ⟨rfl, rfl⟩

/-! ## The contract -/

/-- Both pages of the pair of `bad` translate as the page table says. -/
def TranslatesPair (tlb : Tlb) (bad : Word) (table : Nat → pte_t) : Prop :=
  ∀ held_index va, vpn2Of va = vpn2Of bad →
    PageTranslates (table (PTX va)) va (vir2phy held_index tlb va)

/-- The addresses outside the pair of `bad` and outside the entry that the write replaces
translate as before. -/
def KeepsOthers (tlb : Tlb) (w : TlbWrite) (bad : Word) : Prop :=
  ∀ held_index held_index' va, vpn2Of va ≠ vpn2Of bad →
    vpn2Of va ≠ vpn2 (tlb w.tlb_write_index) →
    SameTranslation (vir2phy held_index tlb va) (vir2phy held_index' (tlb.next w) va)

/-- A refill installed through TLBWI, with the `mtc0` before it in any cycles and the last
perhaps still in write back. The frames may lie anywhere. -/
theorem refill_translates (tlb : Tlb) (bad : Word) (table : Nat → pte_t) (held : MemHeld)
    (m : ExMem) (c : Cp0) (es : List Cp0Edge) (wb : Cp0Write)
    (hmapped : is_kseg0_kseg1 bad = false) (hop : m.mem_aluop = .TLBWI)
    (hwords : enabled (es.map Cp0Edge.wb ++ [wb]) = (tlb_refill bad table (PTX bad)).mtc0s)
    (huniq : ∀ i, i ≠ (tlb_write_struct_o held m (feed c es) wb).tlb_write_index →
      vpn2 (tlb i) ≠ vpn2Of bad) :
    TranslatesPair (tlb.next (tlb_write_struct_o held m (feed c es) wb)) bad table ∧
      KeepsOthers tlb (tlb_write_struct_o held m (feed c es) wb) bad := by
  obtain ⟨w, hw⟩ : ∃ w, w = tlb_write_struct_o held m (feed c es) wb := ⟨_, rfl⟩
  have hentry : w.tlb_write_entry = (tlb_refill bad table (PTX bad)).entry := by
    rw [hw]
    exact tlbwi_writes_entry held m c es wb _ hwords
  have henable : w.tlb_write_enable = true := by
    rw [hw]
    exact decide_eq_true hop
  rw [← hw] at huniq ⊢
  have hnew : tlb.next w w.tlb_write_index = (tlb_refill bad table (PTX bad)).entry := by
    rw [Tlb.next_apply, if_pos ⟨henable, rfl⟩, hentry]
  constructor
  · intro held_index va hva
    have hv : vpn2 (tlb.next w w.tlb_write_index) = vpn2Of va := by
      rw [hnew, vpn2_refill, hva]
    have hi : hit_index held_index (tlb.next w) va = w.tlb_write_index := by
      refine hit_index_unique _ _ _ _ hv ?_
      intro j hj
      by_contra hne
      rw [Tlb.next_apply, if_neg fun h => hne h.2, hva] at hj
      exact huniq j hne hj
    refine pageTranslates_of_agrees ((segment_of_vpn2 hva).trans hmapped) ?_ ?_
    · rw [hi, hv]
    · rw [hi, hnew]
      exact entryAgrees_refill table hva
  · intro held_index held_index' va hpair hold
    refine sameTranslation_of_other _ _ ?_ hold.symm
    rw [hentry, vpn2_refill]
    exact hpair.symm

/-- The third entry of a page table: a frame that user code may read. -/
def readOnlyTable (i : Nat) : pte_t := if i = 3 then 0x80012005#32 else 0#32

/-- The cycles of a refill of that table, one of them without an instruction. -/
def refillEdges : List Cp0Edge :=
  [⟨true, CP0_REG_ENTRYLO0, 0#32⟩, ⟨true, CP0_REG_PAGEMASK, 0#32⟩, .off,
    ⟨true, CP0_REG_ENTRYLO1, 0x493#32⟩].map fun w => ⟨0#8, w, ⟨ZeroWord, false, ZeroWord, ZeroWord⟩⟩

/-- The instruction TLBWI in `mem`. -/
def tlbwiInMem : ExMem :=
  ⟨.off, .off, .TLBWI, ZeroWord, ZeroWord, .off, .clear, 0x80001000#32, false⟩

theorem refill_translates_readOnly :
    TranslatesPair
      (Tlb.next (fun _ => 0#63)
        (tlb_write_struct_o ⟨ZeroWord, ZeroWord, ZeroWord, ZeroWord, ZeroWord, ZeroWord⟩ tlbwiInMem
          (feed Cp0.reset refillEdges) ⟨true, CP0_REG_ENTRYHI, 0x10002000#32⟩))
      0x10003ABC#32 readOnlyTable :=
  (refill_translates (fun _ => 0#63) 0x10003ABC#32 readOnlyTable _ tlbwiInMem Cp0.reset refillEdges _
    (by decide) rfl (by decide +kernel) (by decide +kernel)).1

end nehcpu.kernel
