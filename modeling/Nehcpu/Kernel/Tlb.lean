-- The page table entries of the kernel and the TLB entries that `thumips_tlb.h`
-- makes of them, through the system control registers and the TLB write port.
import Nehcpu.Cpu.MemStage

namespace nehcpu.kernel

open cpu

/-! ## Page table entries -/

abbrev pte_t := BitVec 32

abbrev KERNBASE : Word := 0x80000000#32

abbrev PTE_P : Word := 0x001#32
abbrev PTE_W : Word := 0x002#32
abbrev PTE_U : Word := 0x004#32

/-- The address of the frame, in the fixed segment at `KERNBASE`. -/
def PTE_ADDR (pte : pte_t) : Word := pte &&& ~~~0xFFF#32

/-- The index into a page table. -/
def PTX (la : Word) : Nat := (la.extractLsb' 12 10).toNat

def ptep_present (pte : pte_t) : Bool := pte &&& PTE_P != 0#32

def ptep_s_write (pte : pte_t) : Bool := pte &&& PTE_W != 0#32

/-! ## `thumips_tlb.h` -/

abbrev THUMIPS_TLB_ENTRYL_V : Word := 1#32 <<< 1
abbrev THUMIPS_TLB_ENTRYL_D : Word := 1#32 <<< 2
abbrev THUMIPS_TLB_ENTRYL_G : Word := 1#32 <<< 0
abbrev THUMIPS_TLB_ENTRYH_VPN2_MASK : Word := ~~~0x1FFF#32

def pte2tlblow (pte : pte_t) : Word :=
  let t := ((pte - KERNBASE) >>> 12) <<< 6
  if !ptep_present pte then 0#32
  else
    let t := t ||| THUMIPS_TLB_ENTRYL_V
    let t := t ||| THUMIPS_TLB_ENTRYL_G
    let t := t ||| 2#32 <<< 3
    if ptep_s_write pte then t ||| THUMIPS_TLB_ENTRYL_D else t

/-- The words that `tlb_replace_random` gets. -/
structure EntryWords where
  hi : Word
  low0 : Word
  low1 : Word
deriving DecidableEq, Repr

/-- `tlb_refill` with `pte` at an index of the page table. -/
def tlb_refill (badaddr : Word) (table : Nat → pte_t) (pte : Nat) : EntryWords :=
  let pte := if badaddr &&& (1#32 <<< 12) ≠ 0#32 then pte - 1 else pte
  ⟨badaddr &&& THUMIPS_TLB_ENTRYH_VPN2_MASK, pte2tlblow (table pte), pte2tlblow (table (pte + 1))⟩

abbrev CP0_REG_PAGEMASK : RegAddr := 0b00101#5

/-- The `mtc0` instructions of `tlb_replace_random`, in their order. -/
def EntryWords.mtc0s (w : EntryWords) : List Cp0Write :=
  [⟨true, CP0_REG_ENTRYLO0, w.low0⟩, ⟨true, CP0_REG_PAGEMASK, 0#32⟩,
    ⟨true, CP0_REG_ENTRYLO1, w.low1⟩, ⟨true, CP0_REG_ENTRYHI, w.hi⟩]

/-- The TLB entry that the CPU packs from the words. -/
def EntryWords.entry (w : EntryWords) : TlbEntry := packEntry w.hi w.low0 w.low1

/-! ## The words in the control registers -/

/-- The three registers that an entry is packed from. -/
structure EntryRegs where
  entryhi : Word
  entrylo0 : Word
  entrylo1 : Word

def entryRegs (c : Cp0) : EntryRegs := ⟨c.entryhi_o, c.entrylo0_o, c.entrylo1_o⟩

/-- What one CP0 write does to them. -/
def EntryRegs.write (r : EntryRegs) (w : Cp0Write) : EntryRegs :=
  if w.cp0_reg_we then
    if w.cp0_reg_write_addr = CP0_REG_ENTRYLO0 then
      { r with entrylo0 := maskWrite ENTRYLO_MASK r.entrylo0 w.cp0_reg_data }
    else if w.cp0_reg_write_addr = CP0_REG_ENTRYLO1 then
      { r with entrylo1 := maskWrite ENTRYLO_MASK r.entrylo1 w.cp0_reg_data }
    else if w.cp0_reg_write_addr = CP0_REG_ENTRYHI then
      { r with entryhi := maskWrite ENTRYHI_MASK r.entryhi w.cp0_reg_data }
    else r
  else r

/-- The entry that they give. -/
def EntryRegs.entry (r : EntryRegs) : TlbEntry := packEntry r.entryhi r.entrylo0 r.entrylo1

/-- A cycle of the control registers: the interrupt lines and the write of the instruction in
write back. -/
structure Cp0Edge where
  int_i : BitVec 8
  wb : Cp0Write
  exc : ExcInfo

/-- The control registers after some cycles in which no exception is taken. -/
def feed (c : Cp0) (es : List Cp0Edge) : Cp0 :=
  es.foldl (fun c e => c.next e.int_i e.wb .none e.exc) c

/-- Only the three registers matter to the three registers. -/
theorem entryRegs_write (c : Cp0) (w : Cp0Write) :
    entryRegs (c.write w) = (entryRegs c).write w := by
  unfold Cp0.write EntryRegs.write
  by_cases hw : w.cp0_reg_we = true
  · rw [if_pos hw, if_pos hw]
    by_cases h0 : w.cp0_reg_write_addr = CP0_REG_ENTRYLO0
    · rw [h0]
      rfl
    · by_cases h1 : w.cp0_reg_write_addr = CP0_REG_ENTRYLO1
      · rw [h1]
        rfl
      · by_cases h2 : w.cp0_reg_write_addr = CP0_REG_ENTRYHI
        · rw [h2]
          rfl
        · simp only [if_neg h0, if_neg h1, if_neg h2]
          split_ifs <;> rfl
  · rw [if_neg hw, if_neg hw]

theorem entryRegs_next (c : Cp0) (e : Cp0Edge) :
    entryRegs (c.next e.int_i e.wb .none e.exc) = (entryRegs c).write e.wb := by
  have ht : entryRegs (c.tick e.int_i) = entryRegs c := rfl
  rw [← ht, ← entryRegs_write]
  rfl

theorem EntryRegs.write_off (r : EntryRegs) (w : Cp0Write) (h : w.cp0_reg_we = false) :
    r.write w = r := by
  unfold EntryRegs.write
  rw [if_neg (by rw [h]; decide)]

/-- The writes that a list of cycles makes. -/
def enabled (ws : List Cp0Write) : List Cp0Write := ws.filter Cp0Write.cp0_reg_we

theorem foldl_write_enabled (r : EntryRegs) (ws : List Cp0Write) :
    ws.foldl EntryRegs.write r = (enabled ws).foldl EntryRegs.write r := by
  induction ws generalizing r with
  | nil => rfl
  | cons w ws ih =>
    unfold enabled
    rw [List.foldl_cons, List.filter_cons]
    by_cases h : w.cp0_reg_we = true
    · rw [if_pos h, List.foldl_cons]
      exact ih _
    · rw [if_neg h, EntryRegs.write_off r w (by simpa using h)]
      exact ih r

/-- Cycles without a write do not matter. -/
theorem entryRegs_feed (c : Cp0) (es : List Cp0Edge) :
    entryRegs (feed c es) = (es.map Cp0Edge.wb).foldl EntryRegs.write (entryRegs c) := by
  unfold feed
  induction es generalizing c with
  | nil => rfl
  | cons e es ih => rw [List.foldl_cons, ih, entryRegs_next, List.map_cons, List.foldl_cons]

/-! ## The entry that TLBWI writes -/

theorem packEntry_congr {hi lo0 lo1 hi' lo0' lo1' : Word}
    (hh : hi.extractLsb' 13 19 = hi'.extractLsb' 13 19)
    (h0 : lo0.extractLsb' 6 20 = lo0'.extractLsb' 6 20 ∧ lo0.extractLsb' 1 2 = lo0'.extractLsb' 1 2)
    (h1 : lo1.extractLsb' 6 20 = lo1'.extractLsb' 6 20 ∧ lo1.extractLsb' 1 2 = lo1'.extractLsb' 1 2) :
    packEntry hi lo0 lo1 = packEntry hi' lo0' lo1' := by
  unfold packEntry
  rw [hh, h0.1, h0.2, h1.1, h1.2]

theorem entrylo_mask (old new : Word) :
    (maskWrite ENTRYLO_MASK old new).extractLsb' 6 20 = new.extractLsb' 6 20 ∧
      (maskWrite ENTRYLO_MASK old new).extractLsb' 1 2 = new.extractLsb' 1 2 :=
  ⟨extract_maskWrite _ _ _ _ _ (by decide), extract_maskWrite _ _ _ _ _ (by decide)⟩

theorem entryhi_mask (old new : Word) :
    (maskWrite ENTRYHI_MASK old new).extractLsb' 13 19 = new.extractLsb' 13 19 :=
  extract_maskWrite _ _ _ _ _ (by decide)

/-- After the four `mtc0` the registers give the entry of the words. -/
theorem entry_of_mtc0s (r : EntryRegs) (w : EntryWords) :
    (w.mtc0s.foldl EntryRegs.write r).entry = w.entry := by
  have h : w.mtc0s.foldl EntryRegs.write r =
      ⟨maskWrite ENTRYHI_MASK r.entryhi w.hi, maskWrite ENTRYLO_MASK r.entrylo0 w.low0,
        maskWrite ENTRYLO_MASK r.entrylo1 w.low1⟩ := rfl
  rw [h]
  exact packEntry_congr (entryhi_mask _ _) (entrylo_mask _ _) (entrylo_mask _ _)

theorem cp0LatestPart_hit {held mask value : Word} {wb : Cp0Write} {addr : RegAddr}
    (hw : wb.cp0_reg_we = true) (ha : wb.cp0_reg_write_addr = addr) :
    cp0LatestPart held mask wb addr value = maskWrite mask held wb.cp0_reg_data := by
  unfold cp0LatestPart
  rw [hw, ha, beq_self_eq_true, Bool.and_self, if_pos rfl]

theorem cp0LatestPart_miss {held mask value : Word} {wb : Cp0Write} {addr : RegAddr}
    (h : wb.cp0_reg_we = false ∨ wb.cp0_reg_write_addr ≠ addr) :
    cp0LatestPart held mask wb addr value = value := by
  unfold cp0LatestPart
  rw [if_neg]
  rw [Bool.and_eq_true, beq_iff_eq]
  rintro ⟨hw, ha⟩
  rcases h with h | h
  · rw [h] at hw
    cases hw
  · exact h ha

/-- What `mem` sees of the registers gives the entry that they give once write back is done. -/
theorem tlb_write_entry_eq (held : MemHeld) (m : ExMem) (c : Cp0) (wb : Cp0Write) :
    (tlb_write_struct_o held m c wb).tlb_write_entry = ((entryRegs c).write wb).entry := by
  unfold tlb_write_struct_o EntryRegs.entry mem_cp0_entryhi mem_cp0_entrylo0 mem_cp0_entrylo1
    EntryRegs.write
  simp only
  by_cases hw : wb.cp0_reg_we = true
  · rw [if_pos hw]
    by_cases h0 : wb.cp0_reg_write_addr = CP0_REG_ENTRYLO0
    · have hm (a : RegAddr) (ha : a ≠ CP0_REG_ENTRYLO0) : wb.cp0_reg_write_addr ≠ a :=
        fun h => ha (h.symm.trans h0)
      rw [if_pos h0, cp0LatestPart_hit hw h0, cp0LatestPart_miss (Or.inr (hm _ (by decide))),
        cp0LatestPart_miss (Or.inr (hm _ (by decide)))]
      refine packEntry_congr rfl ?_ ⟨rfl, rfl⟩
      exact ⟨(entrylo_mask _ _).1.trans (entrylo_mask _ _).1.symm,
        (entrylo_mask _ _).2.trans (entrylo_mask _ _).2.symm⟩
    · rw [if_neg h0, cp0LatestPart_miss (Or.inr h0)]
      by_cases h1 : wb.cp0_reg_write_addr = CP0_REG_ENTRYLO1
      · rw [if_pos h1, cp0LatestPart_hit hw h1,
          cp0LatestPart_miss (Or.inr fun h => absurd (h1.symm.trans h) (by decide))]
        refine packEntry_congr rfl ⟨rfl, rfl⟩ ?_
        exact ⟨(entrylo_mask _ _).1.trans (entrylo_mask _ _).1.symm,
          (entrylo_mask _ _).2.trans (entrylo_mask _ _).2.symm⟩
      · rw [if_neg h1, cp0LatestPart_miss (Or.inr h1)]
        by_cases h2 : wb.cp0_reg_write_addr = CP0_REG_ENTRYHI
        · rw [if_pos h2, cp0LatestPart_hit hw h2]
          exact packEntry_congr ((entryhi_mask _ _).trans (entryhi_mask _ _).symm) ⟨rfl, rfl⟩
            ⟨rfl, rfl⟩
        · rw [if_neg h2, cp0LatestPart_miss (Or.inr h2)]
          rfl
  · rw [Bool.not_eq_true] at hw
    rw [if_neg (by rw [hw]; decide), cp0LatestPart_miss (Or.inl hw), cp0LatestPart_miss (Or.inl hw),
      cp0LatestPart_miss (Or.inl hw)]
    rfl

/-- TLBWI with the four `mtc0` before it, the last of which may still be in write back: it
writes the entry of the words. -/
theorem tlbwi_writes_entry (held : MemHeld) (m : ExMem) (c : Cp0) (es : List Cp0Edge)
    (wb : Cp0Write) (w : EntryWords) (h : enabled (es.map Cp0Edge.wb ++ [wb]) = w.mtc0s) :
    (tlb_write_struct_o held m (feed c es) wb).tlb_write_entry = w.entry := by
  rw [tlb_write_entry_eq, entryRegs_feed]
  have hf : ((es.map Cp0Edge.wb).foldl EntryRegs.write (entryRegs c)).write wb =
      (es.map Cp0Edge.wb ++ [wb]).foldl EntryRegs.write (entryRegs c) := by
    rw [List.foldl_append]
    rfl
  rw [hf, foldl_write_enabled, h, entry_of_mtc0s]

/-! ## The fields of the entry -/

theorem vpn2_packEntry (hi lo0 lo1 : Word) :
    vpn2 (packEntry hi lo0 lo1) = hi.extractLsb' 13 19 := by
  unfold vpn2 packEntry
  rw [BitVec.extractLsb'_append_eq_of_le (by decide),
    BitVec.extractLsb'_append_eq_of_le (by decide), BitVec.extractLsb'_append_eq_of_le (by decide)]
  exact BitVec.extractLsb'_append_eq_left

theorem pfnOf_packEntry (hi lo0 lo1 : Word) (odd : Bool) :
    pfnOf (packEntry hi lo0 lo1) odd = (if odd then lo1 else lo0).extractLsb' 6 20 := by
  unfold pfnOf packEntry
  cases odd
  · rw [if_neg (by decide), if_neg (by decide), BitVec.extractLsb'_append_eq_of_le (by decide)]
    exact BitVec.extractLsb'_append_eq_right
  · rw [if_pos rfl, if_pos rfl, BitVec.extractLsb'_append_eq_of_le (by decide),
      BitVec.extractLsb'_append_eq_of_le (by decide),
      BitVec.extractLsb'_append_eq_of_le (by decide)]
    exact BitVec.extractLsb'_append_eq_right

/-- The two flags of a half. -/
theorem flags_packEntry (hi lo0 lo1 : Word) (odd : Bool) :
    (packEntry hi lo0 lo1).extractLsb' (if odd then 22 else 0) 2 =
      (if odd then lo1 else lo0).extractLsb' 1 2 := by
  unfold packEntry
  cases odd
  · exact BitVec.extractLsb'_append_eq_right
  · rw [if_pos rfl, if_pos rfl, BitVec.extractLsb'_append_eq_of_le (by decide),
      BitVec.extractLsb'_append_eq_of_le (by decide)]
    exact BitVec.extractLsb'_append_eq_right

/-- A bit of a field. -/
theorem getLsbD_of_extract {n m : Nat} {x : BitVec n} {y : BitVec m} {s t len : Nat}
    (h : x.extractLsb' s len = y.extractLsb' t len) (i : Nat) (hi : i < len) :
    x.getLsbD (s + i) = y.getLsbD (t + i) := by
  have hb := congrArg (fun v => v.getLsbD i) h
  simpa [hi] using hb

theorem dirtyOf_packEntry (hi lo0 lo1 : Word) (odd : Bool) :
    dirtyOf (packEntry hi lo0 lo1) odd = (if odd then lo1 else lo0)[2] := by
  have h := getLsbD_of_extract (flags_packEntry hi lo0 lo1 odd) 1 (by decide)
  cases odd
  · exact h
  · exact h

theorem validOf_packEntry (hi lo0 lo1 : Word) (odd : Bool) :
    validOf (packEntry hi lo0 lo1) odd = getElem (if odd then lo1 else lo0) 1 bit1_lt := by
  have h := getLsbD_of_extract (flags_packEntry hi lo0 lo1 odd) 0 (by decide)
  cases odd
  · exact h
  · exact h

/-! ## One half of an entry -/

theorem pte2tlblow_absent {pte : pte_t} (h : ptep_present pte = false) : pte2tlblow pte = 0#32 := by
  unfold pte2tlblow
  simp [h]

theorem pte2tlblow_valid (pte : pte_t) : getElem (pte2tlblow pte) 1 bit1_lt = ptep_present pte := by
  unfold pte2tlblow
  cases h : ptep_present pte
  · simp
  · cases ptep_s_write pte
    · simp
    · simp

theorem pte2tlblow_dirty {pte : pte_t} (h : ptep_present pte = true) :
    (pte2tlblow pte)[2] = ptep_s_write pte := by
  unfold pte2tlblow
  cases hw : ptep_s_write pte
  · simp [h]
  · simp [h]

theorem pte2tlblow_pfn {pte : pte_t} (h : ptep_present pte = true) :
    (pte2tlblow pte).extractLsb' 6 20 = (pte - KERNBASE).extractLsb' 12 20 := by
  have hsmall (x : Word) (hx : x.extractLsb' 6 20 = 0#20) (t : Word) :
      (t ||| x).extractLsb' 6 20 = t.extractLsb' 6 20 := by
    rw [BitVec.extractLsb'_or, hx, BitVec.or_zero]
  have hshift (x : Word) : ((x >>> 12) <<< 6).extractLsb' 6 20 = x.extractLsb' 12 20 := by
    apply BitVec.eq_of_getLsbD_eq
    intro i hi
    have h32 : 6 + i < 32 := by omega
    simp [hi, h32]
  unfold pte2tlblow
  simp only [h, Bool.not_true, Bool.false_eq_true, ↓reduceIte]
  cases ptep_s_write pte
  · rw [if_neg (by decide), hsmall _ (by decide), hsmall _ (by decide), hsmall _ (by decide),
      hshift]
  · rw [if_pos rfl, hsmall _ (by decide), hsmall _ (by decide), hsmall _ (by decide),
      hsmall _ (by decide), hshift]

end nehcpu.kernel
