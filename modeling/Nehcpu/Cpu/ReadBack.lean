-- What an MFC0 reads back of an MTC0. Close behind it the word comes from the stages,
-- as the MTC0 has it; later it comes from `cp0_reg`, which keeps only some bits of it
-- and reads CAUSE in part from the interrupt lines.
import Nehcpu.Cpu.Invariant
import Mathlib.Tactic.IntervalCases

namespace nehcpu.cpu

open machine

/-! ## The registers by their numbers -/

/-- The numbers that have a register. -/
def cp0Regs : List RegAddr :=
  [CP0_REG_INDEX, CP0_REG_ENTRYLO0, CP0_REG_ENTRYLO1, CP0_REG_BADVADDR, CP0_REG_COUNT,
    CP0_REG_ENTRYHI, CP0_REG_COMPARE, CP0_REG_STATUS, CP0_REG_EPC, CP0_REG_CAUSE, CP0_REG_EBASE]

/-- The register with a number, zero where there is none. -/
def Cp0.reg (c : Cp0) (r : RegAddr) : Word :=
  if r = CP0_REG_INDEX then c.index_o
  else if r = CP0_REG_ENTRYLO0 then c.entrylo0_o
  else if r = CP0_REG_ENTRYLO1 then c.entrylo1_o
  else if r = CP0_REG_BADVADDR then c.badvaddr_o
  else if r = CP0_REG_COUNT then c.count_o
  else if r = CP0_REG_ENTRYHI then c.entryhi_o
  else if r = CP0_REG_COMPARE then c.compare_o
  else if r = CP0_REG_STATUS then c.status_o
  else if r = CP0_REG_EPC then c.epc_o
  else if r = CP0_REG_CAUSE then c.cause_o
  else if r = CP0_REG_EBASE then c.ebase_o
  else ZeroWord

/-- The bits of a register that an MTC0 writes. -/
def writeMask (r : RegAddr) : Word :=
  if r = CP0_REG_INDEX then INDEX_MASK
  else if r = CP0_REG_ENTRYLO0 ∨ r = CP0_REG_ENTRYLO1 then ENTRYLO_MASK
  else if r = CP0_REG_ENTRYHI then ENTRYHI_MASK
  else if r = CP0_REG_STATUS then STATUS_MASK
  else if r = CP0_REG_CAUSE then CAUSE_MASK
  else if r = CP0_REG_EBASE then EBASE_MASK
  else if r ∈ [CP0_REG_BADVADDR, CP0_REG_COUNT, CP0_REG_COMPARE, CP0_REG_EPC] then
    BitVec.allOnes 32
  else ZeroWord

/-- The bits of a register that an MFC0 reads. -/
def readMask (r : RegAddr) : Word :=
  if r = CP0_REG_INDEX then 0x8000000F#32
  else if r = CP0_REG_ENTRYLO0 ∨ r = CP0_REG_ENTRYLO1 then 0x3FFFFFC7#32
  else if r = CP0_REG_ENTRYHI then ENTRYHI_MASK
  else if r = CP0_REG_CAUSE then 0x8080007C#32
  else if r = CP0_REG_EBASE then EBASE_MASK
  else if r ∈ [CP0_REG_BADVADDR, CP0_REG_COUNT, CP0_REG_COMPARE, CP0_REG_STATUS, CP0_REG_EPC] then
    BitVec.allOnes 32
  else ZeroWord

/-- The bits that an MFC0 reads from somewhere else: the lines in CAUSE, the segment in EBASE,
and the word read before where there is no register. -/
def readElse (held : Word) (int_i : BitVec 8) (r : RegAddr) : Word :=
  if r = CP0_REG_CAUSE then 0#16 ++ int_i ++ 0#8
  else if r = CP0_REG_EBASE then 0x80000000#32
  else if r ∈ cp0Regs then ZeroWord
  else held

/-- The MTC0 goes to the register. -/
def Cp0Write.Hits (w : Cp0Write) (r : RegAddr) : Prop :=
  w.cp0_reg_we = true ∧ w.cp0_reg_write_addr = r

instance (w : Cp0Write) (r : RegAddr) : Decidable (w.Hits r) := inferInstanceAs (Decidable (_ ∧ _))

@[simp] theorem maskWrite_allOnes (old new : Word) :
    maskWrite (BitVec.allOnes 32) old new = new := by
  unfold maskWrite
  rw [BitVec.not_allOnes, BitVec.and_zero, BitVec.zero_or, BitVec.and_allOnes]

theorem write_of_hits (c : Cp0) (w : Cp0Write) (r : RegAddr) (hr : r ∈ cp0Regs) (h : w.Hits r) :
    (c.write w).reg r = maskWrite (writeMask r) (c.reg r) w.cp0_reg_data := by
  obtain ⟨we, addr, data⟩ := w
  obtain ⟨rfl, rfl⟩ : we = true ∧ addr = r := h
  simp only [cp0Regs, List.mem_cons, List.not_mem_nil, or_false] at hr
  rcases hr with rfl | rfl | rfl | rfl | rfl | rfl | rfl | rfl | rfl | rfl | rfl
  all_goals simp +decide only [Cp0.write, Cp0.reg, writeMask, ↓reduceIte]
  all_goals simp only [maskWrite_allOnes]

/-- An MTC0 to another register, or to none, leaves the register alone. -/
theorem write_of_misses (c : Cp0) (w : Cp0Write) (r : RegAddr) (h : ¬ w.Hits r) :
    (c.write w).reg r = c.reg r := by
  obtain ⟨we, addr, data⟩ := w
  cases we with
  | false => rfl
  | true =>
    have hr : r ≠ addr := fun hr => h ⟨rfl, hr.symm⟩
    by_cases ha : addr ∈ cp0Regs
    · simp only [cp0Regs, List.mem_cons, List.not_mem_nil, or_false] at ha
      rcases ha with rfl | rfl | rfl | rfl | rfl | rfl | rfl | rfl | rfl | rfl | rfl
      all_goals simp +decide only [Cp0.write, ↓reduceIte]
      all_goals unfold Cp0.reg
      all_goals simp only [hr, ↓reduceIte]
    · simp only [cp0Regs, List.mem_cons, List.not_mem_nil, or_false, not_or] at ha
      simp only [Cp0.write, ha, ↓reduceIte]

theorem tick_reg (c : Cp0) (int_i : BitVec 8) (r : RegAddr) :
    (c.tick int_i).reg r =
      if r = CP0_REG_COUNT then c.count_o + 1#32
      else if r = CP0_REG_CAUSE then
        maskWrite CAUSE_IP_MASK c.cause_o (0#16 ++ int_i ++ 0#8)
      else c.reg r := by
  unfold Cp0.reg Cp0.tick
  by_cases hcount : r = CP0_REG_COUNT
  · subst hcount
    rfl
  · by_cases hcause : r = CP0_REG_CAUSE
    · subst hcause
      rfl
    · simp only [hcount, hcause, ↓reduceIte]

theorem index_read (w : Word) :
    w.extractLsb' 31 1 ++ 0#27 ++ w.extractLsb' 0 4 = w &&& 0x8000000F#32 := by
  apply BitVec.eq_of_getLsbD_eq
  intro i hi
  simp only [BitVec.getLsbD_append, BitVec.getLsbD_extractLsb', BitVec.getLsbD_and]
  interval_cases i <;> simp

theorem entrylo_read (w : Word) :
    0#2 ++ w.extractLsb' 6 24 ++ 0#3 ++ w.extractLsb' 0 3 = w &&& 0x3FFFFFC7#32 := by
  apply BitVec.eq_of_getLsbD_eq
  intro i hi
  simp only [BitVec.getLsbD_append, BitVec.getLsbD_extractLsb', BitVec.getLsbD_and]
  interval_cases i <;> simp

theorem entryhi_read (w : Word) :
    w.extractLsb' 13 19 ++ 0#5 ++ w.extractLsb' 0 8 = w &&& 0xFFFFE0FF#32 := by
  apply BitVec.eq_of_getLsbD_eq
  intro i hi
  simp only [BitVec.getLsbD_append, BitVec.getLsbD_extractLsb', BitVec.getLsbD_and]
  interval_cases i <;> simp

theorem cause_read (w : Word) (int_i : BitVec 8) :
    w.extractLsb' 31 1 ++ 0#7 ++ w.extractLsb' 23 1 ++ 0#7 ++ int_i ++ 0#1 ++
        w.extractLsb' 2 5 ++ 0#2 =
      w &&& 0x8080007C#32 ||| (0#16 ++ int_i ++ 0#8) := by
  apply BitVec.eq_of_getLsbD_eq
  intro i hi
  simp only [BitVec.getLsbD_append, BitVec.getLsbD_extractLsb', BitVec.getLsbD_and,
    BitVec.getLsbD_or]
  interval_cases i <;> simp

theorem ebase_read (w : Word) :
    0b10#2 ++ w.extractLsb' 12 18 ++ 0#12 = w &&& 0x3FFFF000#32 ||| 0x80000000#32 := by
  apply BitVec.eq_of_getLsbD_eq
  intro i hi
  simp only [BitVec.getLsbD_append, BitVec.getLsbD_extractLsb', BitVec.getLsbD_and,
    BitVec.getLsbD_or]
  interval_cases i <;> simp

/-- What `cp0_reg` gives to an MFC0: bits of the register, and others. -/
theorem cp0_data_eq (held : Word) (c : Cp0) (int_i : BitVec 8) (r : RegAddr) :
    cp0_data_o held c int_i r = (c.reg r &&& readMask r) ||| readElse held int_i r := by
  by_cases hr : r ∈ cp0Regs
  · simp only [cp0Regs, List.mem_cons, List.not_mem_nil, or_false] at hr
    have whole : ∀ w : Word, w = w &&& BitVec.allOnes 32 ||| ZeroWord := by
      intro w
      rw [BitVec.and_allOnes, BitVec.or_zero]
    rcases hr with rfl | rfl | rfl | rfl | rfl | rfl | rfl | rfl | rfl | rfl | rfl
    · exact (index_read _).trans BitVec.or_zero.symm
    · exact (entrylo_read _).trans BitVec.or_zero.symm
    · exact (entrylo_read _).trans BitVec.or_zero.symm
    · exact whole _
    · exact whole _
    · exact (entryhi_read _).trans BitVec.or_zero.symm
    · exact whole _
    · exact whole _
    · exact whole _
    · exact cause_read _ _
    · exact ebase_read _
  · have hn := hr
    simp only [cp0Regs, List.mem_cons, List.not_mem_nil, or_false, not_or] at hn
    simp only [cp0_data_o, Cp0.reg, readMask, readElse, hn, hr, or_self, ↓reduceIte,
      List.mem_cons, List.not_mem_nil]
    simp

/-! ## Masks -/

theorem maskWrite_outside {mask k : Word} (h : mask &&& k = ZeroWord) (old new : Word) :
    maskWrite mask old new &&& k = old &&& k := by
  apply BitVec.eq_of_getLsbD_eq
  intro i hi
  have hb := congrArg (BitVec.getLsbD · i) h
  simp only [BitVec.getLsbD_and, BitVec.getLsbD_zero] at hb
  simp only [BitVec.getLsbD_and, getLsbD_maskWrite]
  cases hm : mask.getLsbD i with
  | true =>
    rw [hm, Bool.true_and] at hb
    simp [hb]
  | false => rfl

/-- What is read of a partial write: the part that is kept and the part that was there. -/
theorem maskWrite_and (mask old new k : Word) :
    maskWrite mask old new &&& k = (old &&& k &&& ~~~mask) ||| (new &&& (mask &&& k)) := by
  apply BitVec.eq_of_getLsbD_eq
  intro i hi
  simp only [BitVec.getLsbD_and, BitVec.getLsbD_or, BitVec.getLsbD_not, getLsbD_maskWrite]
  cases mask.getLsbD i <;> simp [hi]

/-- A word comes back whole when its other bits are the fixed ones. -/
theorem kept_or_fixed_iff {k f : Word} (h : f &&& k = ZeroWord) (v : Word) :
    (v &&& k) ||| f = v ↔ v &&& ~~~k = f := by
  constructor
  · intro hv
    apply BitVec.eq_of_getLsbD_eq
    intro i hi
    have hb := congrArg (BitVec.getLsbD · i) hv
    have hz := congrArg (BitVec.getLsbD · i) h
    simp only [BitVec.getLsbD_and, BitVec.getLsbD_or, BitVec.getLsbD_zero] at hb hz
    simp only [BitVec.getLsbD_and, BitVec.getLsbD_not, hi, decide_true, Bool.true_and]
    revert hb hz
    cases v.getLsbD i <;> cases k.getLsbD i <;> cases f.getLsbD i <;> simp
  · intro hv
    rw [← hv]
    apply BitVec.eq_of_getLsbD_eq
    intro i hi
    simp only [BitVec.getLsbD_and, BitVec.getLsbD_or, BitVec.getLsbD_not, hi, decide_true,
      Bool.true_and]
    cases v.getLsbD i <;> cases k.getLsbD i <;> rfl

/-! ## Bits that nothing sets -/

/-- The bits of these registers that no MTC0 writes are zero. -/
structure Clean (c : Cp0) : Prop where
  index : c.index_o &&& ~~~INDEX_MASK = ZeroWord
  entrylo0 : c.entrylo0_o &&& ~~~ENTRYLO_MASK = ZeroWord
  entrylo1 : c.entrylo1_o &&& ~~~ENTRYLO_MASK = ZeroWord
  status : c.status_o &&& ~~~STATUS_MASK = ZeroWord

theorem write_outside (c : Cp0) (w : Cp0Write) (r : RegAddr) (hr : r ∈ cp0Regs)
    (h : c.reg r &&& ~~~writeMask r = ZeroWord) :
    (c.write w).reg r &&& ~~~writeMask r = ZeroWord := by
  by_cases hw : w.Hits r
  · rw [write_of_hits c w r hr hw, maskWrite_outside (BitVec.and_not_self _), h]
  · rw [write_of_misses c w r hw, h]

theorem Clean.write {c : Cp0} (h : Clean c) (w : Cp0Write) : Clean (c.write w) :=
  ⟨write_outside c w CP0_REG_INDEX (by decide) h.index,
    write_outside c w CP0_REG_ENTRYLO0 (by decide) h.entrylo0,
    write_outside c w CP0_REG_ENTRYLO1 (by decide) h.entrylo1,
    write_outside c w CP0_REG_STATUS (by decide) h.status⟩

theorem Clean.enter {c : Cp0} (h : Clean c) (x : ExcInfo) (code : BitVec 5) :
    Clean (c.enter x code) :=
  ⟨h.index, h.entrylo0, h.entrylo1, (maskWrite_outside (by decide) _ _).trans h.status⟩

theorem Clean.enterTlb {c : Cp0} (h : Clean c) (x : ExcInfo) (code : BitVec 5) :
    Clean (c.enterTlb x code) :=
  ⟨h.index, h.entrylo0, h.entrylo1, (h.enter x code).status⟩

theorem Clean.except {c : Cp0} (h : Clean c) (e : Except) (x : ExcInfo) : Clean (c.except e x) := by
  cases e with
  | none => exact h
  | interrupt => exact h.enter x _
  | syscall => exact h.enter x _
  | instInvalid => exact h.enter x _
  | adel => exact ⟨h.index, h.entrylo0, h.entrylo1, (h.enter x 0b00100#5).status⟩
  | ades => exact ⟨h.index, h.entrylo0, h.entrylo1, (h.enter x 0b00101#5).status⟩
  | eret => exact ⟨h.index, h.entrylo0, h.entrylo1,
      (maskWrite_outside (by decide) _ _).trans h.status⟩
  | tlblInst => exact h.enterTlb x _
  | tlbMod => exact h.enterTlb x _
  | tlblData => exact h.enterTlb x _
  | tlbs => exact h.enterTlb x _

theorem clean_run (regs : RegFile) (is : List CpuIn) : Clean (Cpu.run regs is).cp0 := by
  have hstep : ∀ (s : Cpu) (i : CpuIn), Clean s.cp0 → Clean (s.step i).cp0 := by
    intro s i hc
    have htick : Clean (s.cp0.tick i.int_i) := ⟨hc.index, hc.entrylo0, hc.entrylo1, hc.status⟩
    exact (htick.write s.mem_wb.wb_cp0).except s.excepttype s.exc_info
  have hreset : Clean Cp0.reset := ⟨by decide, by decide, by decide, by decide⟩
  exact invariant_of_anyRun hstep is hreset

/-! ## From `mem` to write back to `cp0_reg` -/

/-- What an MFC0 of the register gives if it is in `ex` in this cycle. -/
def readBack (s : Cpu) (i : CpuIn) (r : RegAddr) : Word :=
  mfc0Value
    ⟨s.ex_mem.mem_cp0, s.mem_wb.wb_cp0, cp0_data_o s.held.cp0_data_o s.cp0 i.int_i r⟩ r

theorem ex_reg_of_mfc0 (s : Cpu) (i : CpuIn) (h : s.id_ex.ex_aluop = .MFC0)
    (hsel : s.id_ex.ex_alusel = .MOVE) :
    (s.ex_reg i).wdata = readBack s i (rdOf s.id_ex.ex_inst) := by
  have hr : s.cp0_raddr = rdOf s.id_ex.ex_inst := by
    unfold Cpu.cp0_raddr cp0_reg_read_addr_o
    rw [h]
  unfold Cpu.ex_reg ex_reg ex_wdata_o readBack Cpu.cp0_fwd Cpu.cp0_data
  rw [hsel, h, hr]
  rfl

theorem readBack_of_mem {s : Cpu} {i : CpuIn} {r : RegAddr} {v : Word}
    (h : s.ex_mem.mem_cp0 = ⟨true, r, v⟩) : readBack s i r = v := by
  unfold readBack mfc0Value
  rw [h]
  simp

theorem readBack_of_wb {s : Cpu} {i : CpuIn} {r : RegAddr} {v : Word}
    (hm : ¬ s.ex_mem.mem_cp0.Hits r) (h : s.mem_wb.wb_cp0 = ⟨true, r, v⟩) :
    readBack s i r = v := by
  unfold readBack mfc0Value
  rw [if_neg (by simpa [Cp0Write.Hits] using hm), h]
  simp

theorem readBack_of_retired {s : Cpu} {i : CpuIn} {r : RegAddr}
    (hm : ¬ s.ex_mem.mem_cp0.Hits r) (hw : ¬ s.mem_wb.wb_cp0.Hits r) :
    readBack s i r = (s.cp0.reg r &&& readMask r) ||| readElse s.held.cp0_data_o i.int_i r := by
  unfold readBack mfc0Value
  rw [if_neg (by simpa [Cp0Write.Hits] using hm), if_neg (by simpa [Cp0Write.Hits] using hw),
    cp0_data_eq]

/-- No exception is taken, and no MTC0 to the register is in `mem`. -/
def QuietFor (r : RegAddr) (s : Cpu) (_ : CpuIn) : Prop :=
  s.flush = false ∧ ¬ s.ex_mem.mem_cp0.Hits r

instance (r : RegAddr) (s : Cpu) (i : CpuIn) : Decidable (QuietFor r s i) :=
  inferInstanceAs (Decidable (_ ∧ _))

/-- The register holds what an MTC0 of `v` leaves of it, `n` cycles after the write. -/
def Settled (r : RegAddr) (v : Word) (n : Nat) (c₁ c : Cp0) : Prop :=
  if r = CP0_REG_COUNT then c.count_o = v + BitVec.ofNat 32 n
  else c.reg r &&& readMask r = maskWrite (writeMask r) (c₁.reg r) v &&& readMask r

theorem cp0_of_noFlush {s : Cpu} {i : CpuIn} (hf : s.flush = false) :
    (s.step i).cp0 = (s.cp0.tick i.int_i).write s.mem_wb.wb_cp0 := by
  have hn : s.excepttype = .none := by simpa [Cpu.flush] using hf
  have hc : (s.step i).cp0 = s.cp0.next i.int_i s.mem_wb.wb_cp0 s.excepttype s.exc_info := rfl
  rw [hc, hn]
  rfl

/-- What write back gets comes from `mem`. -/
theorem wb_hits {s : Cpu} {i : CpuIn} {r : RegAddr} (h : (s.step i).mem_wb.wb_cp0.Hits r) :
    s.ex_mem.mem_cp0.Hits r := by
  rcases edge_cases s i with hf | ⟨hf, hm⟩ | ⟨hf, hm, hq⟩ | ⟨hf, hst⟩
  · have hs : (s.step i).mem_wb = .clear :=
      congrArg Cpu.Stages.mem_wb (Cpu.stages_of_flush (i := i) hf)
    rw [hs] at h
    cases h.1
  · have hs : (s.step i).mem_wb = .clear := congrArg Cpu.Stages.mem_wb (Cpu.stages_of_memStall hf hm)
    rw [hs] at h
    cases h.1
  · have hs : (s.step i).mem_wb = s.mem_out i :=
      congrArg Cpu.Stages.mem_wb (Cpu.stages_of_hold hf hm hq).2
    rw [hs] at h
    exact h
  · have hs : (s.step i).mem_wb = s.mem_out i := congrArg Cpu.Stages.mem_wb (Cpu.stages_of_run hf hst)
    rw [hs] at h
    exact h

/-- Only the lines of CAUSE and COUNT move by themselves, and MFC0 does not read the lines from
the register. -/
theorem tick_read (c : Cp0) (int_i : BitVec 8) (r : RegAddr) (hr : r ≠ CP0_REG_COUNT) :
    (c.tick int_i).reg r &&& readMask r = c.reg r &&& readMask r := by
  rw [tick_reg, if_neg hr]
  split
  · rename_i hcause
    subst hcause
    exact maskWrite_outside (by decide) _ _
  · rfl

theorem settled_write (c : Cp0) (int_i : BitVec 8) (r : RegAddr) (v : Word) :
    Settled r v 0 c ((c.tick int_i).write ⟨true, r, v⟩) := by
  unfold Settled
  by_cases hcount : r = CP0_REG_COUNT
  · subst hcount
    rw [if_pos rfl]
    exact (BitVec.add_zero v).symm
  · rw [if_neg hcount]
    by_cases hr : r ∈ cp0Regs
    · rw [write_of_hits _ _ r hr ⟨rfl, rfl⟩, maskWrite_and, maskWrite_and,
        tick_read c int_i r hcount]
    · have hz : readMask r = ZeroWord := by
        simp only [cp0Regs, List.mem_cons, List.not_mem_nil, or_false, not_or] at hr
        simp only [readMask, hr, or_self, ↓reduceIte, List.mem_cons, List.not_mem_nil]
      rw [hz, BitVec.and_zero, BitVec.and_zero]

theorem Settled.next {r : RegAddr} {v : Word} {n : Nat} {c₁ c : Cp0} (h : Settled r v n c₁ c)
    (int_i : BitVec 8) {w : Cp0Write} (hw : ¬ w.Hits r) :
    Settled r v (n + 1) c₁ ((c.tick int_i).write w) := by
  unfold Settled at h ⊢
  by_cases hcount : r = CP0_REG_COUNT
  · subst hcount
    rw [if_pos rfl] at h ⊢
    have hkeep : ((c.tick int_i).write w).count_o = (c.tick int_i).count_o :=
      write_of_misses (c.tick int_i) w CP0_REG_COUNT hw
    have htick : (c.tick int_i).count_o = c.count_o + 1#32 := rfl
    rw [hkeep, htick, h, BitVec.add_assoc, BitVec.ofNat_add]
  · rw [if_neg hcount] at h ⊢
    rw [write_of_misses _ w r hw, tick_read c int_i r hcount, h]

theorem settled_run {r : RegAddr} {v : Word} {c₁ : Cp0} (ks : List CpuIn) (s : Cpu) (n : Nat)
    (hwb : ¬ s.mem_wb.wb_cp0.Hits r) (h : Settled r v n c₁ s.cp0)
    (hq : StepsMeet Cpu.step (QuietFor r) s ks) :
    Settled r v (n + ks.length) c₁ (runFrom Cpu.step s ks).cp0 ∧
      ¬ (runFrom Cpu.step s ks).mem_wb.wb_cp0.Hits r := by
  induction ks generalizing s n with
  | nil => exact ⟨h, hwb⟩
  | cons k ks ih =>
    obtain ⟨⟨hf, hm⟩, hrest⟩ := hq
    have hnext : Settled r v (n + 1) c₁ (s.step k).cp0 := by
      rw [cp0_of_noFlush hf]
      exact h.next k.int_i hwb
    have hlen : n + (k :: ks).length = n + 1 + ks.length := by
      rw [List.length_cons]
      omega
    rw [hlen]
    exact ih (s.step k) (n + 1) (fun hh => hm (wb_hits hh)) hnext hrest

/-! ## The three distances -/

/-- The bits of a register that come back, and what stands in the others. -/
def keptBits (r : RegAddr) : Word := writeMask r &&& readMask r

def fixedBits (c : Cp0) (held : Word) (int_i : BitVec 8) (r : RegAddr) : Word :=
  if r = CP0_REG_CAUSE then (c.cause_o &&& 0x8000007C#32) ||| (0#16 ++ int_i ++ 0#8)
  else readElse held int_i r

theorem Clean.rest {c : Cp0} (h : Clean c) (r : RegAddr) (hr : r ≠ CP0_REG_CAUSE) :
    c.reg r &&& readMask r &&& ~~~writeMask r = ZeroWord := by
  have hout : ∀ w mask k : Word, w &&& ~~~mask = ZeroWord → w &&& k &&& ~~~mask = ZeroWord := by
    intro w mask k hw
    rw [BitVec.and_assoc, BitVec.and_comm k, ← BitVec.and_assoc, hw, BitVec.zero_and]
  have hall : ∀ w mask : Word, w &&& mask &&& ~~~mask = ZeroWord := by
    intro w mask
    rw [BitVec.and_assoc, BitVec.and_not_self]
    exact BitVec.and_zero
  by_cases hreg : r ∈ cp0Regs
  · simp only [cp0Regs, List.mem_cons, List.not_mem_nil, or_false] at hreg
    rcases hreg with rfl | rfl | rfl | rfl | rfl | rfl | rfl | rfl | rfl | rfl | rfl
    · exact hout _ _ _ h.index
    · exact hout _ _ _ h.entrylo0
    · exact hout _ _ _ h.entrylo1
    · exact hall _ _
    · exact hall _ _
    · exact hall _ _
    · exact hall _ _
    · exact hout _ _ _ h.status
    · exact hall _ _
    · exact absurd rfl hr
    · exact hall _ _
  · have hz : c.reg r = ZeroWord := by
      simp only [cp0Regs, List.mem_cons, List.not_mem_nil, or_false, not_or] at hreg
      simp only [Cp0.reg, hreg, ↓reduceIte]
    rw [hz, BitVec.zero_and, BitVec.zero_and]

/-- What is read of CAUSE from the register and is not written: `BD` and `ExcCode`. -/
theorem cause_rest (c : Cp0) :
    c.reg CP0_REG_CAUSE &&& readMask CP0_REG_CAUSE &&& ~~~writeMask CP0_REG_CAUSE =
      c.cause_o &&& 0x8000007C#32 := by
  rw [BitVec.and_assoc]
  rfl

theorem fixed_disjoint (c : Cp0) (held : Word) (int_i : BitVec 8) (r : RegAddr) :
    fixedBits c held int_i r &&& keptBits r = ZeroWord := by
  by_cases hreg : r ∈ cp0Regs
  · by_cases hcause : r = CP0_REG_CAUSE
    · subst hcause
      have hk : keptBits CP0_REG_CAUSE = BitVec.twoPow 32 23 := by decide
      have hb : (fixedBits c held int_i CP0_REG_CAUSE).getLsbD 23 = false := by
        have hlines : (0#16 ++ int_i ++ 0#8).getLsbD 23 = false := by
          rw [BitVec.getLsbD_append, BitVec.getLsbD_append]
          rfl
        simp only [fixedBits, ↓reduceIte, BitVec.getLsbD_or, BitVec.getLsbD_and, hlines]
        simp
      rw [hk, BitVec.and_twoPow, hb]
      rfl
    · unfold fixedBits readElse
      rw [if_neg hcause, if_neg hcause]
      split
      · rename_i hebase
        subst hebase
        decide
      · exact BitVec.zero_and
  · have hz : keptBits r = ZeroWord := by
      simp only [cp0Regs, List.mem_cons, List.not_mem_nil, or_false, not_or] at hreg
      simp [keptBits, writeMask, hreg]
    rw [hz, BitVec.and_zero]

/-- What an MFC0 gets once the MTC0 has retired. -/
theorem settled_read {r : RegAddr} {v : Word} {n : Nat} {c₁ c : Cp0} (hc : Clean c₁)
    (h : Settled r v n c₁ c) (hr : r ≠ CP0_REG_COUNT) (held : Word) (int_i : BitVec 8) :
    (c.reg r &&& readMask r) ||| readElse held int_i r =
      (v &&& keptBits r) ||| fixedBits c₁ held int_i r := by
  unfold Settled at h
  rw [if_neg hr] at h
  rw [h, maskWrite_and]
  by_cases hcause : r = CP0_REG_CAUSE
  · subst hcause
    rw [cause_rest, BitVec.or_comm (c₁.cause_o &&& _), BitVec.or_assoc]
    rfl
  · rw [hc.rest r hcause, BitVec.zero_or]
    unfold fixedBits
    rw [if_neg hcause]
    rfl

/-- The three distances give `v`: the MTC0 in `mem`, in write back and retired, for COUNT with
the cycles since then. -/
structure Alike (r : RegAddr) (v : Word) (n : Nat) (mem wb retired : Word) : Prop where
  mem : mem = v
  wb : wb = v
  retired : retired = if r = CP0_REG_COUNT then v + BitVec.ofNat 32 n else v

/-- An MFC0 gives the same word at every distance, in every run with no exception and no other
MTC0 to the register in between, if and only if the bits that do not come back have in the
word the values that they are read with. -/
theorem mfc0_alike_iff (regs : RegFile) (js : List CpuIn) (i j : CpuIn) (ks : List CpuIn)
    (l : CpuIn) (r : RegAddr) (v : Word)
    (hmem : (Cpu.run regs js).ex_mem.mem_cp0 = ⟨true, r, v⟩)
    (hleaves : (Cpu.run regs js).flush = false ∧
      getElem ((Cpu.run regs js).stall i) 4 stall4_lt = false)
    (hquiet : StepsMeet Cpu.step (QuietFor r) (Cpu.run regs (js ++ [i])) (j :: ks))
    (hlast : ¬ (Cpu.run regs (js ++ [i] ++ j :: ks)).ex_mem.mem_cp0.Hits r) :
    Alike r v ks.length (readBack (Cpu.run regs js) i r)
        (readBack (Cpu.run regs (js ++ [i])) j r)
        (readBack (Cpu.run regs (js ++ [i] ++ j :: ks)) l r) ↔
      v &&& ~~~keptBits r =
        fixedBits (Cpu.run regs (js ++ [i])).cp0
          (Cpu.run regs (js ++ [i] ++ j :: ks)).held.cp0_data_o l.int_i r := by
  have hrun : Cpu.run regs (js ++ [i] ++ j :: ks) =
      runFrom Cpu.step (Cpu.run regs (js ++ [i])) (j :: ks) := runFrom_append _ _ _ _
  have hwb : (Cpu.run regs (js ++ [i])).mem_wb.wb_cp0 = ⟨true, r, v⟩ := by
    have hs : Cpu.run regs (js ++ [i]) = (Cpu.run regs js).step i := runFrom_snoc _ _ _ _
    rw [hs, ← hmem]
    simp only [Cpu.step, hleaves.1, hleaves.2, Cpu.latch_load]
    rfl
  have hclean := clean_run regs (js ++ [i])
  rw [hrun] at hlast ⊢
  obtain ⟨⟨hf, hm⟩, hrest⟩ := hquiet
  have hfirst := readBack_of_mem (i := i) hmem
  generalize Cpu.run regs (js ++ [i]) = s at hwb hf hm hrest hlast hclean ⊢
  have hsettled : Settled r v 0 s.cp0 (s.step j).cp0 := by
    rw [cp0_of_noFlush hf, hwb]
    exact settled_write _ _ _ _
  obtain ⟨hend, hwbEnd⟩ :=
    settled_run ks (s.step j) 0 (fun hh => hm (wb_hits hh)) hsettled hrest
  rw [runFrom_cons] at hlast ⊢
  have hread := readBack_of_retired (i := l) hlast hwbEnd
  have hsecond := readBack_of_wb (i := j) hm hwb
  rw [Nat.zero_add] at hend
  by_cases hcount : r = CP0_REG_COUNT
  · subst hcount
    have hvalue : (runFrom Cpu.step (s.step j) ks).cp0.count_o = v + BitVec.ofNat 32 ks.length := by
      unfold Settled at hend
      rwa [if_pos rfl] at hend
    constructor
    · intro _
      have hk : ~~~keptBits CP0_REG_COUNT = ZeroWord := by decide
      rw [hk, BitVec.and_zero]
      rfl
    · intro _
      refine ⟨hfirst, hsecond, ?_⟩
      rw [hread, if_pos rfl, ← hvalue]
      exact BitVec.or_zero.trans BitVec.and_allOnes
  · rw [← kept_or_fixed_iff (fixed_disjoint _ _ _ _), ← settled_read hclean hend hcount, ← hread]
    constructor
    · intro h
      rw [h.retired, if_neg hcount]
    · intro h
      exact ⟨hfirst, hsecond, by rw [if_neg hcount, h]⟩

/-- `addiu $1, $0, -1` and the MTC0 `inst`, up to the cycle in which it is in `mem`. -/
def mtc0Run (inst : Word) : List CpuIn :=
  [.quiet, .quiet, .fetched 0x2401FFFF#32, .quiet, .fetched inst, .quiet, .fetched ZeroWord, .quiet]

/-- EPC keeps all bits. -/
theorem mfc0_alike_iff_epc :
    Alike CP0_REG_EPC 0xFFFFFFFF#32 2
      (readBack (Cpu.run (fun _ => ZeroWord) (mtc0Run 0x40817000#32)) .quiet CP0_REG_EPC)
      (readBack (Cpu.run (fun _ => ZeroWord) (mtc0Run 0x40817000#32 ++ [.quiet])) .quiet
        CP0_REG_EPC)
      (readBack (Cpu.run (fun _ => ZeroWord)
        (mtc0Run 0x40817000#32 ++ [.quiet] ++ [.quiet, .quiet, .quiet])) .quiet CP0_REG_EPC) :=
  (mfc0_alike_iff _ (mtc0Run 0x40817000#32) .quiet .quiet [.quiet, .quiet] .quiet CP0_REG_EPC
    0xFFFFFFFF#32 (by decide +kernel) (by decide +kernel) (by decide +kernel)
    (by decide +kernel)).2 (by decide +kernel)

/-- INDEX comes back from the stages as `0xFFFFFFFF` and from `cp0_reg` as `0xF`. -/
theorem index_reads_two_ways :
    ¬ ∀ (regs : RegFile) (js : List CpuIn) (i j : CpuIn) (ks : List CpuIn) (l : CpuIn)
      (r : RegAddr) (v : Word),
      (Cpu.run regs js).ex_mem.mem_cp0 = ⟨true, r, v⟩ →
      (Cpu.run regs js).flush = false ∧ getElem ((Cpu.run regs js).stall i) 4 stall4_lt = false →
      StepsMeet Cpu.step (QuietFor r) (Cpu.run regs (js ++ [i])) (j :: ks) →
      ¬ (Cpu.run regs (js ++ [i] ++ j :: ks)).ex_mem.mem_cp0.Hits r →
      Alike r v ks.length (readBack (Cpu.run regs js) i r)
        (readBack (Cpu.run regs (js ++ [i])) j r)
        (readBack (Cpu.run regs (js ++ [i] ++ j :: ks)) l r) := by
  intro h
  have hi := (h (fun _ => ZeroWord) (mtc0Run 0x40810000#32) .quiet .quiet [] .quiet CP0_REG_INDEX
    0xFFFFFFFF#32 (by decide +kernel) (by decide +kernel) (by decide +kernel)
    (by decide +kernel)).retired
  exact absurd hi (by decide +kernel)

end nehcpu.cpu
