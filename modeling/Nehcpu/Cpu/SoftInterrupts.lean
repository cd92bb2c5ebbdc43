-- The two software interrupts of CAUSE. An MTC0 writes them, and so does every clock
-- edge, from the two lines of `int_i` that are below the hardware ones; MFC0 reads the
-- lines.
import Nehcpu.Cpu.ReadBack

namespace nehcpu.cpu

open machine

/-! ## The pending bits -/

/-- Bits 9:8 of CAUSE and of STATUS, and the lines that CAUSE takes them from. -/
def softBits (w : Word) : BitVec 2 := w.extractLsb' 8 2
def softLines (int_i : BitVec 8) : BitVec 2 := int_i.extractLsb' 0 2

/-- Bits 15:10, and their lines. -/
def hardBits (w : Word) : BitVec 6 := w.extractLsb' 10 6
def hardLines (int_i : BitVec 8) : BitVec 6 := int_i.extractLsb' 2 6

theorem extract_extract (w : Word) (start len a n : Nat) (h : a + n ≤ len) :
    (w.extractLsb' start len).extractLsb' a n = w.extractLsb' (start + a) n := by
  apply BitVec.eq_of_getLsbD_eq
  intro i hi
  have hlen : a + i < len := by omega
  simp only [BitVec.getLsbD_extractLsb', hi, hlen, decide_true, Bool.true_and, Nat.add_assoc]

theorem softBits_eq (w : Word) : softBits w = softLines (w.extractLsb' 8 8) :=
  (extract_extract w 8 8 0 2 (by decide)).symm

theorem hardBits_eq (w : Word) : hardBits w = hardLines (w.extractLsb' 8 8) :=
  (extract_extract w 8 8 2 6 (by decide)).symm

theorem lines_extract (int_i : BitVec 8) : (0#16 ++ int_i ++ 0#8).extractLsb' 8 8 = int_i := by
  apply BitVec.eq_of_getLsbD_eq
  intro i hi
  have hlow : ¬ 8 + i < 8 := by omega
  have hpos : 8 + i - 8 = i := by omega
  rw [BitVec.getLsbD_extractLsb', BitVec.getLsbD_append, if_neg hlow, hpos, BitVec.getLsbD_append,
    if_pos hi, decide_eq_true hi, Bool.true_and]

theorem tick_pending (c : Cp0) (int_i : BitVec 8) :
    (c.tick int_i).cause_o.extractLsb' 8 8 = int_i := by
  have h : (c.tick int_i).cause_o = maskWrite CAUSE_IP_MASK c.cause_o (0#16 ++ int_i ++ 0#8) := rfl
  rw [h, extract_maskWrite _ _ _ 8 8 (by decide), lines_extract]

/-- An exception writes `BD` and `ExcCode` only. -/
theorem except_pending (c : Cp0) (e : Except) (x : ExcInfo) :
    (c.except e x).cause_o.extractLsb' 8 8 = c.cause_o.extractLsb' 8 8 := by
  have henter : ∀ code, (c.enter x code).cause_o.extractLsb' 8 8 = c.cause_o.extractLsb' 8 8 := by
    intro code
    have h : (c.enter x code).cause_o =
        maskWrite CAUSE_CODE_MASK
          (maskWrite CAUSE_BD_MASK c.cause_o (if x.is_in_delayslot_i then CAUSE_BD_MASK else ZeroWord))
          (0#25 ++ code ++ 0#2) := rfl
    rw [h, extract_maskWrite_old _ _ _ 8 8 (by decide), extract_maskWrite_old _ _ _ 8 8 (by decide)]
  cases e with
  | none => rfl
  | eret => rfl
  | _ => exact henter _

variable {s : Cpu} {k : CpuIn}

theorem cause_next (s : Cpu) (k : CpuIn) :
    (s.step k).cp0.cause_o.extractLsb' 8 8 =
      ((s.cp0.tick k.int_i).write s.mem_wb.wb_cp0).cause_o.extractLsb' 8 8 :=
  except_pending _ _ _

/-- With no MTC0 to CAUSE in write back the edge takes all eight lines. -/
theorem cause_of_lines (h : ¬ s.mem_wb.wb_cp0.Hits CP0_REG_CAUSE) :
    (s.step k).cp0.cause_o.extractLsb' 8 8 = k.int_i := by
  have hkeep : ((s.cp0.tick k.int_i).write s.mem_wb.wb_cp0).cause_o = (s.cp0.tick k.int_i).cause_o :=
    write_of_misses (s.cp0.tick k.int_i) s.mem_wb.wb_cp0 CP0_REG_CAUSE h
  rw [cause_next, hkeep, tick_pending]

theorem hardBits_next (s : Cpu) (k : CpuIn) :
    hardBits (s.step k).cp0.cause_o = hardLines k.int_i := by
  by_cases h : s.mem_wb.wb_cp0.Hits CP0_REG_CAUSE
  · have hw : ((s.cp0.tick k.int_i).write s.mem_wb.wb_cp0).cause_o =
        maskWrite CAUSE_MASK (s.cp0.tick k.int_i).cause_o s.mem_wb.wb_cp0.cp0_reg_data :=
      write_of_hits (s.cp0.tick k.int_i) s.mem_wb.wb_cp0 CP0_REG_CAUSE (by decide) h
    rw [hardBits_eq, cause_next, hw, ← hardBits_eq]
    unfold hardBits
    rw [extract_maskWrite_old _ _ _ 10 6 (by decide)]
    exact (hardBits_eq _).trans (congrArg hardLines (tick_pending _ _))
  · rw [hardBits_eq, cause_of_lines h]

/-- The edge at which an MTC0 to CAUSE is in write back. -/
theorem softBits_of_write {v : Word} (h : s.mem_wb.wb_cp0 = ⟨true, CP0_REG_CAUSE, v⟩) :
    softBits (s.step k).cp0.cause_o = softBits v := by
  have hw : ((s.cp0.tick k.int_i).write s.mem_wb.wb_cp0).cause_o =
      maskWrite CAUSE_MASK (s.cp0.tick k.int_i).cause_o v := by
    rw [h]
    rfl
  rw [softBits_eq, cause_next, hw, ← softBits_eq]
  exact extract_maskWrite _ _ _ 8 2 (by decide)

/-! ## The law over a run -/

/-- In this cycle a bit of `v` is pending that STATUS lets through, and interrupts are on. -/
def Enabled (v status : Word) : Prop :=
  softBits v &&& softBits status ≠ 0#2 ∧ getElem status 0 bit0_lt = true ∧
    getElem status 1 bit1_lt = false

/-- The instruction in `mem` is interrupted if the bits of `v` ask for it. -/
def Interrupts (v : Word) (s : Cpu) : Prop :=
  Enabled v (mem_cp0_status s.cp0 s.mem_wb.wb_cp0) →
    s.ex_mem.mem_current_inst_addr ≠ ZeroWord → s.excepttype = .interrupt

/-- What the law asks of a cycle after an MTC0 of `v` to CAUSE. -/
structure Persists (v : Word) (s : Cpu) (k : CpuIn) : Prop where
  kept : softBits s.cp0.cause_o = softBits v
  read : softBits (readBack s k CP0_REG_CAUSE) = softBits v
  taken : Interrupts v s
  hard : hardBits (s.step k).cp0.cause_o = hardLines k.int_i
  hard_read : hardBits (readBack s k CP0_REG_CAUSE) = hardLines k.int_i

/-- No other MTC0 to CAUSE is on its way. -/
def NoCause (s : Cpu) (_ : CpuIn) : Prop :=
  ¬ s.ex_mem.mem_cp0.Hits CP0_REG_CAUSE ∧ ¬ s.mem_wb.wb_cp0.Hits CP0_REG_CAUSE

instance (s : Cpu) (k : CpuIn) : Decidable (NoCause s k) := inferInstanceAs (Decidable (_ ∧ _))

theorem interrupts_of_softBits {v : Word}
    (h : softBits (mem_cp0_cause s.held.mem s.cp0 s.mem_wb.wb_cp0) = softBits v) :
    Interrupts v s := by
  rintro ⟨hbits, hie, hexl⟩ haddr
  have hpend : (mem_cp0_cause s.held.mem s.cp0 s.mem_wb.wb_cp0).extractLsb' 8 8 &&&
      (mem_cp0_status s.cp0 s.mem_wb.wb_cp0).extractLsb' 8 8 ≠ 0x00#8 := by
    intro hz
    apply hbits
    rw [← h, softBits_eq, softBits_eq]
    unfold softLines
    rw [← BitVec.extractLsb'_and, hz]
    rfl
  have hi : interruptTaken (mem_cp0_cause s.held.mem s.cp0 s.mem_wb.wb_cp0)
      (mem_cp0_status s.cp0 s.mem_wb.wb_cp0) = true := by
    unfold interruptTaken
    rw [bne_iff_ne.2 hpend, hie, hexl]
    rfl
  unfold Cpu.excepttype excepttype_o
  rw [if_pos haddr, if_pos hi]

/-- In write back the MTC0 is forwarded to the interrupt check. -/
theorem interrupts_of_write {v : Word} (h : s.mem_wb.wb_cp0 = ⟨true, CP0_REG_CAUSE, v⟩) :
    Interrupts v s := by
  apply interrupts_of_softBits
  have hc : mem_cp0_cause s.held.mem s.cp0 s.mem_wb.wb_cp0 =
      maskWrite CAUSE_FORWARD_MASK s.held.mem.cp0_cause v := by
    rw [h]
    rfl
  rw [hc]
  exact extract_maskWrite _ _ _ 8 2 (by decide)

theorem read_pending (h : NoCause s k) :
    (readBack s k CP0_REG_CAUSE).extractLsb' 8 8 = k.int_i := by
  have hread : readBack s k CP0_REG_CAUSE =
      (s.cp0.cause_o &&& 0x8080007C#32) ||| (0#16 ++ k.int_i ++ 0#8) :=
    readBack_of_retired h.1 h.2
  have hmask : (0x8080007C#32 : Word).extractLsb' 8 8 = 0#8 := by decide
  rw [hread, BitVec.extractLsb'_or, BitVec.extractLsb'_and, hmask, lines_extract, BitVec.and_zero,
    BitVec.zero_or]

/-- While the bits are still there, one more cycle is lawful exactly when the lines agree. -/
theorem persists_iff {v : Word} (h : NoCause s k) (hkept : softBits s.cp0.cause_o = softBits v) :
    Persists v s k ↔ softLines k.int_i = softBits v := by
  have hread := read_pending h
  constructor
  · intro hp
    rw [← hp.read, softBits_eq, hread]
  · intro hl
    refine ⟨hkept, ?_, ?_, hardBits_next s k, ?_⟩
    · rw [softBits_eq, hread, hl]
    · apply interrupts_of_softBits
      have hc : mem_cp0_cause s.held.mem s.cp0 s.mem_wb.wb_cp0 = s.cp0.cause_o := by
        unfold mem_cp0_cause cp0LatestPart
        rw [if_neg (by simpa [Cp0Write.Hits] using h.2)]
      rw [hc, hkept]
    · rw [hardBits_eq, hread]

theorem persists_run_iff {v : Word} (ks : List CpuIn) (s : Cpu)
    (hkept : softBits s.cp0.cause_o = softBits v) (hq : StepsMeet Cpu.step NoCause s ks) :
    StepsMeet Cpu.step (Persists v) s ks ↔ ∀ k ∈ ks, softLines k.int_i = softBits v := by
  induction ks generalizing s with
  | nil => simp [StepsMeet]
  | cons k ks ih =>
    obtain ⟨hno, hrest⟩ := hq
    have hnext : softBits (s.step k).cp0.cause_o = softLines k.int_i := by
      rw [softBits_eq, cause_of_lines hno.2]
    rw [List.forall_mem_cons]
    constructor
    · rintro ⟨hp, hps⟩
      have hl := (persists_iff hno hkept).1 hp
      exact ⟨hl, (ih (s.step k) (hnext.trans hl) hrest).1 hps⟩
    · rintro ⟨hl, hls⟩
      exact ⟨(persists_iff hno hkept).2 hl, (ih (s.step k) (hnext.trans hl) hrest).2 hls⟩

/-- After an MTC0 to CAUSE, in every run and until the next one, the software bits stay, read
back and interrupt, and the hardware bits follow their lines, if and only if the two lines
below the hardware ones stay at the values that were written. -/
theorem software_interrupts_iff (regs : RegFile) (js : List CpuIn) (i : CpuIn) (ks : List CpuIn)
    (v : Word) (hwb : (Cpu.run regs js).mem_wb.wb_cp0 = ⟨true, CP0_REG_CAUSE, v⟩)
    (hq : StepsMeet Cpu.step NoCause (Cpu.run regs (js ++ [i])) ks) :
    (Interrupts v (Cpu.run regs js) ∧
        hardBits (Cpu.run regs (js ++ [i])).cp0.cause_o = hardLines i.int_i ∧
        StepsMeet Cpu.step (Persists v) (Cpu.run regs (js ++ [i])) ks) ↔
      ∀ k ∈ ks, softLines k.int_i = softBits v := by
  have hs : Cpu.run regs (js ++ [i]) = (Cpu.run regs js).step i := runFrom_snoc _ _ _ _
  have hkept : softBits (Cpu.run regs (js ++ [i])).cp0.cause_o = softBits v := by
    rw [hs]
    exact softBits_of_write hwb
  have hhard : hardBits (Cpu.run regs (js ++ [i])).cp0.cause_o = hardLines i.int_i := by
    rw [hs]
    exact hardBits_next _ _
  rw [← persists_run_iff ks _ hkept hq]
  exact ⟨fun h => h.2.2, fun h => ⟨interrupts_of_write hwb, hhard, h⟩⟩

/-- An MTC0 of `0x300` to CAUSE, up to the cycle in which it is in write back. -/
def causeRun : List CpuIn :=
  [.quiet, .quiet, .fetched 0x24010300#32, .quiet, .fetched 0x40816800#32, .quiet,
    .fetched ZeroWord, .quiet, .quiet]

/-- The two lines of the input, and nothing else. -/
def softOn : CpuIn := { CpuIn.quiet with int_i := 0x03#8 }

theorem software_interrupts_iff_on :
    StepsMeet Cpu.step (Persists 0x300#32)
      (Cpu.run (fun _ => ZeroWord) (causeRun ++ [.quiet])) [softOn, softOn] :=
  ((software_interrupts_iff (fun _ => ZeroWord) causeRun .quiet [softOn, softOn] 0x300#32
    (by decide +kernel) (by decide +kernel)).2 (by decide +kernel)).2.2

theorem software_interrupts_are_lost :
    ¬ ∀ (regs : RegFile) (js : List CpuIn) (i : CpuIn) (ks : List CpuIn) (v : Word),
      (Cpu.run regs js).mem_wb.wb_cp0 = ⟨true, CP0_REG_CAUSE, v⟩ →
      StepsMeet Cpu.step NoCause (Cpu.run regs (js ++ [i])) ks →
      StepsMeet Cpu.step (Persists v) (Cpu.run regs (js ++ [i])) ks := by
  intro h
  have hp := (h (fun _ => ZeroWord) causeRun .quiet [.quiet, .quiet] 0x300#32
    (by decide +kernel) (by decide +kernel)).2.1.kept
  exact absurd hp (by decide +kernel)

end nehcpu.cpu
