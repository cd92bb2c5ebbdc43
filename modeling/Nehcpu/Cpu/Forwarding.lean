-- Operand forwarding. The operands that `id` hands over, and the HI/LO pair that
-- `ex` sees, are what a machine has that finishes each instruction before the next.
import Nehcpu.Cpu.BusOnce

namespace nehcpu.cpu

open machine

/-! ## Writes in program order -/

/-- The register file after writes, the oldest first. -/
def applyWrites (regs : RegFile) (ws : List RegWrite) : RegFile := ws.foldl RegFile.write regs

/-- The pair after one write. -/
def applyHiLo1 (hl : Word × Word) (w : HiLoWrite) : Word × Word :=
  if w.whilo then (w.hi, w.lo) else hl

/-- The HI/LO pair after writes, the oldest first. -/
def applyHiLo (hl : Word × Word) (ws : List HiLoWrite) : Word × Word := ws.foldl applyHiLo1 hl

theorem write_apply (regs : RegFile) (w : RegWrite) (r : RegAddr) (hr : r ≠ NOPRegAddr) :
    regs.write w r = if w.wreg = true ∧ w.wd = r then w.wdata else regs r := by
  unfold RegFile.write
  by_cases hw : w.wreg = true ∧ w.wd = r
  · rw [if_pos ⟨hw.1, by rw [hw.2]; exact hr⟩, if_pos hw, if_pos hw.2.symm]
  · rw [if_neg hw]
    split
    · rename_i hc
      exact if_neg fun he => hw ⟨hc.1, he.symm⟩
    · rfl

theorem write_off (regs : RegFile) : regs.write .off = regs := rfl

/-- No write changes `$0`. -/
theorem write_zero (regs : RegFile) (w : RegWrite) : regs.write w NOPRegAddr = regs NOPRegAddr := by
  unfold RegFile.write
  split
  · rename_i hc
    exact if_neg fun he => hc.2 he.symm
  · rfl

/-! ## Who is older -/

/-- The writes of the instructions in `wb`, in `mem` and in `ex`, the oldest first. -/
def older (s : Cpu) (i : CpuIn) : List RegWrite := [s.mem_wb.wb_reg, s.mem_reg i, s.ex_reg i]

def olderHiLo (s : Cpu) : List HiLoWrite := [s.mem_wb.wb_hilo, s.ex_mem.mem_hilo]

/-- The write of the instruction that leaves `mem` at this edge. -/
def retired (s : Cpu) (i : CpuIn) : List RegWrite :=
  if leavesMem s i then [s.mem_reg i] else []

def retiredHiLo (s : Cpu) (i : CpuIn) : List HiLoWrite :=
  if leavesMem s i then [s.ex_mem.mem_hilo] else []

/-- `id` hands its instruction to `ex` at this edge: `stall[2]` is `NoStop`, and no flush. -/
def HandsOver (s : Cpu) (i : CpuIn) : Prop :=
  s.flush = false ∧ getElem (s.stall i) 2 stall2_lt = false

instance (s : Cpu) (i : CpuIn) : Decidable (HandsOver s i) := instDecidableAnd

/-- `ex` hands its instruction to `mem`: `stall[3]` is `NoStop`, and no flush. -/
def ExHandsOver (s : Cpu) (i : CpuIn) : Prop :=
  s.flush = false ∧ getElem (s.stall i) 3 stall3_lt = false

instance (s : Cpu) (i : CpuIn) : Decidable (ExHandsOver s i) := instDecidableAnd

variable {s : Cpu} {i : CpuIn}

theorem leavesMem_of_exHandsOver (h : ExHandsOver s i) : leavesMem s i = true := by
  obtain ⟨hf, hst⟩ := h
  have hm := (Cpu.stall_ex_iff hf).1 hst
  unfold leavesMem
  rw [hf, (Cpu.stall_mem_iff hf).2 hm]
  rfl

theorem exHandsOver_of_handsOver (h : HandsOver s i) : ExHandsOver s i := by
  obtain ⟨hf, hst⟩ := h
  have hz := Cpu.stall_id_iff.1 hst
  exact ⟨hf, by rw [hz]; rfl⟩

/-! ## Operands from the stages below -/

/-- The choice of `id` for a register other than `$0`: the youngest write below wins. -/
theorem reg_o_eq_applyWrites (held imm : Word) (b : Bypass) (regs : RegFile) (wb : RegWrite)
    (r : RegAddr) (hr : r ≠ NOPRegAddr) (hq : stallreq_for_reg_loadrelate b true r = false) :
    reg_o held b true r (regs.rdata wb true r) imm = applyWrites regs [wb, b.mem, b.ex] r := by
  have hfold : applyWrites regs [wb, b.mem, b.ex] r =
      if b.ex.wreg = true ∧ b.ex.wd = r then b.ex.wdata
      else if b.mem.wreg = true ∧ b.mem.wd = r then b.mem.wdata
      else if wb.wreg = true ∧ wb.wd = r then wb.wdata
      else regs r := by
    simp only [applyWrites, List.foldl_cons, List.foldl_nil, write_apply _ _ _ hr]
  have hdata : regs.rdata wb true r = if wb.wreg = true ∧ wb.wd = r then wb.wdata else regs r := by
    unfold RegFile.rdata
    rw [if_neg hr]
    by_cases hw : wb.wreg = true ∧ wb.wd = r
    · rw [if_pos ⟨hw.2.symm, hw.1, rfl⟩, if_pos hw]
    · rw [if_neg fun hc => hw ⟨hc.2.1, hc.1.symm⟩, if_neg hw]
      rfl
  rw [hfold, ← hdata]
  unfold reg_o
  simp [hq]

/-- Nobody waits for a load when `id` hands over. -/
theorem noLoadUse_of_handsOver (h : HandsOver s i) :
    stallreq_for_reg_loadrelate (s.bypass i) s.dec.reg1_read_o s.dec.reg1_addr_o = false ∧
      stallreq_for_reg_loadrelate (s.bypass i) s.dec.reg2_read_o s.dec.reg2_addr_o = false := by
  obtain ⟨hf, hst⟩ := h
  have hz := ((Cpu.stall_eq_zero_iff hf).1 (Cpu.stall_id_iff.1 hst)).2.1
  unfold Cpu.stallreq_from_id at hz
  exact Bool.or_eq_false_iff.1 hz

theorem reg1_o_eq_older (h : HandsOver s i) (hread : s.dec.reg1_read_o = true)
    (hr : s.dec.reg1_addr_o ≠ NOPRegAddr) :
    s.reg1_o i = applyWrites s.regs (older s i) s.dec.reg1_addr_o := by
  have hq := (noLoadUse_of_handsOver h).1
  unfold Cpu.reg1_o
  rw [hread] at hq ⊢
  exact reg_o_eq_applyWrites _ _ (s.bypass i) _ _ _ hr hq

theorem reg2_o_eq_older (h : HandsOver s i) (hread : s.dec.reg2_read_o = true)
    (hr : s.dec.reg2_addr_o ≠ NOPRegAddr) :
    s.reg2_o i = applyWrites s.regs (older s i) s.dec.reg2_addr_o := by
  have hq := (noLoadUse_of_handsOver h).2
  unfold Cpu.reg2_o
  rw [hread] at hq ⊢
  exact reg_o_eq_applyWrites _ _ (s.bypass i) _ _ _ hr hq

theorem hilo_eq_older (s : Cpu) : s.hilo = applyHiLo (s.hi_o, s.lo_o) (olderHiLo s) := by
  unfold Cpu.hilo HILO olderHiLo applyHiLo applyHiLo1
  simp only [List.foldl_cons, List.foldl_nil]

/-! ## The sequential machine -/

/-- Write back holds what left `mem` at the last edge, and nothing else. -/
theorem wb_after (s : Cpu) (i : CpuIn) :
    (s.step i).mem_wb = if leavesMem s i then s.mem_out i else .clear := by
  rcases edge_cases s i with hf | ⟨hf, hm⟩ | ⟨hf, hm, hq⟩ | ⟨hf, hst⟩
  · have hl : leavesMem s i = false := by
      unfold leavesMem
      rw [hf]
      rfl
    rw [hl]
    exact congrArg Cpu.Stages.mem_wb (Cpu.stages_of_flush hf)
  · have hl : leavesMem s i = false := by
      unfold leavesMem
      rw [Cpu.stall_of_memStall hf hm, hf]
      rfl
    rw [hl]
    exact congrArg Cpu.Stages.mem_wb (Cpu.stages_of_memStall hf hm)
  · obtain ⟨hst, hs⟩ := Cpu.stages_of_hold hf hm hq
    have hl : leavesMem s i = true := by
      unfold leavesMem
      rw [hst, hf]
      rfl
    rw [hl]
    exact congrArg Cpu.Stages.mem_wb hs
  · have hl : leavesMem s i = true := by
      unfold leavesMem
      rw [hst, hf]
      rfl
    rw [hl]
    exact congrArg Cpu.Stages.mem_wb (Cpu.stages_of_run hf hst)

/-- One edge adds the write that retires to the writes that the register file and write
back have taken. -/
theorem committed_step (s : Cpu) (i : CpuIn) :
    applyWrites (s.step i).regs [(s.step i).mem_wb.wb_reg] =
      applyWrites (applyWrites s.regs [s.mem_wb.wb_reg]) (retired s i) := by
  have hr : (s.step i).regs = s.regs.write s.mem_wb.wb_reg := rfl
  rw [hr, wb_after]
  unfold retired
  rcases Bool.eq_false_or_eq_true (leavesMem s i) with hl | hl
  · rw [hl]
    rfl
  · rw [hl]
    rfl

theorem committedHiLo_step (s : Cpu) (i : CpuIn) :
    applyHiLo ((s.step i).hi_o, (s.step i).lo_o) [(s.step i).mem_wb.wb_hilo] =
      applyHiLo (applyHiLo (s.hi_o, s.lo_o) [s.mem_wb.wb_hilo]) (retiredHiLo s i) := by
  have hr : ((s.step i).hi_o, (s.step i).lo_o) =
      applyHiLo1 (s.hi_o, s.lo_o) s.mem_wb.wb_hilo := by
    simp only [Cpu.step, applyHiLo1]
    split
    · rfl
    · rfl
  rw [hr, wb_after]
  unfold retiredHiLo
  rcases Bool.eq_false_or_eq_true (leavesMem s i) with hl | hl
  · rw [hl]
    rfl
  · rw [hl]
    rfl

theorem committed_runFrom (s : Cpu) (is : List CpuIn) :
    applyWrites (runFrom Cpu.step s is).regs [(runFrom Cpu.step s is).mem_wb.wb_reg] =
      applyWrites (applyWrites s.regs [s.mem_wb.wb_reg]) (logFrom Cpu.step retired s is) := by
  induction is generalizing s with
  | nil => rfl
  | cons i is ih =>
    rw [runFrom_cons, ih, committed_step]
    simp only [applyWrites, logFrom, List.foldl_append]

theorem committedHiLo_runFrom (s : Cpu) (is : List CpuIn) :
    applyHiLo ((runFrom Cpu.step s is).hi_o, (runFrom Cpu.step s is).lo_o)
        [(runFrom Cpu.step s is).mem_wb.wb_hilo] =
      applyHiLo (applyHiLo (s.hi_o, s.lo_o) [s.mem_wb.wb_hilo])
        (logFrom Cpu.step retiredHiLo s is) := by
  induction is generalizing s with
  | nil => rfl
  | cons i is ih =>
    rw [runFrom_cons, ih, committedHiLo_step]
    simp only [applyHiLo, logFrom, List.foldl_append]

/-- The general register writes of a run from reset, in the order in which the
instructions left `mem`. -/
def retiredLog (regs : RegFile) (is : List CpuIn) : List RegWrite :=
  logFrom Cpu.step retired (Cpu.reset regs) is

def retiredHiLoLog (regs : RegFile) (is : List CpuIn) : List HiLoWrite :=
  logFrom Cpu.step retiredHiLo (Cpu.reset regs) is

/-- When `id` hands over, the older instructions in the stages add up to the instructions
that have left `mem` by then, since `ex` holds a bubble. -/
theorem older_eq_retired (regs : RegFile) (is : List CpuIn) (i : CpuIn)
    (h : HandsOver (Cpu.run regs is) i) :
    applyWrites (Cpu.run regs is).regs (older (Cpu.run regs is) i) =
      applyWrites regs (retiredLog regs (is ++ [i])) := by
  have hcom : applyWrites (Cpu.run regs is).regs [(Cpu.run regs is).mem_wb.wb_reg] =
      applyWrites regs (retiredLog regs is) := committed_runFrom _ is
  have hbub := bubble_of_run (good_run regs is) h.1 (Cpu.stall_id_iff.1 h.2)
  have hex : ((Cpu.run regs is).ex_reg i).wreg = false := by
    have hw : ((Cpu.run regs is).ex_reg i).wreg = (Cpu.run regs is).id_ex.ex_wreg := rfl
    rw [hw, hbub, bubble_wreg]
  have hlast : ∀ rf : RegFile, rf.write ((Cpu.run regs is).ex_reg i) = rf := by
    intro rf
    unfold RegFile.write
    simp [hex]
  have hsplit : applyWrites (Cpu.run regs is).regs (older (Cpu.run regs is) i) =
      ((applyWrites (Cpu.run regs is).regs [(Cpu.run regs is).mem_wb.wb_reg]).write
        ((Cpu.run regs is).mem_reg i)).write ((Cpu.run regs is).ex_reg i) := rfl
  have hret : retired (Cpu.run regs is) i = [(Cpu.run regs is).mem_reg i] := by
    unfold retired
    rw [leavesMem_of_exHandsOver (exHandsOver_of_handsOver h)]
    rfl
  have hlog : retiredLog regs (is ++ [i]) =
      retiredLog regs is ++ [(Cpu.run regs is).mem_reg i] := by
    unfold retiredLog
    rw [logFrom_append]
    simp only [logFrom, List.append_nil]
    exact congrArg _ hret
  rw [hsplit, hlast, hcom, hlog]
  simp only [applyWrites, List.foldl_append, List.foldl_cons, List.foldl_nil]

theorem olderHiLo_eq_retired (regs : RegFile) (is : List CpuIn) (i : CpuIn)
    (h : ExHandsOver (Cpu.run regs is) i) :
    (Cpu.run regs is).hilo = applyHiLo (ZeroWord, ZeroWord) (retiredHiLoLog regs (is ++ [i])) := by
  have hcom : applyHiLo ((Cpu.run regs is).hi_o, (Cpu.run regs is).lo_o)
      [(Cpu.run regs is).mem_wb.wb_hilo] =
      applyHiLo (ZeroWord, ZeroWord) (retiredHiLoLog regs is) := committedHiLo_runFrom _ is
  have hsplit : applyHiLo ((Cpu.run regs is).hi_o, (Cpu.run regs is).lo_o)
      (olderHiLo (Cpu.run regs is)) =
      applyHiLo1 (applyHiLo ((Cpu.run regs is).hi_o, (Cpu.run regs is).lo_o)
        [(Cpu.run regs is).mem_wb.wb_hilo]) (Cpu.run regs is).ex_mem.mem_hilo := rfl
  have hret : retiredHiLo (Cpu.run regs is) i = [(Cpu.run regs is).ex_mem.mem_hilo] := by
    unfold retiredHiLo
    rw [leavesMem_of_exHandsOver h]
    rfl
  have hlog : retiredHiLoLog regs (is ++ [i]) =
      retiredHiLoLog regs is ++ [(Cpu.run regs is).ex_mem.mem_hilo] := by
    unfold retiredHiLoLog
    rw [logFrom_append]
    simp only [logFrom, List.append_nil]
    exact congrArg _ hret
  rw [hilo_eq_older, hsplit, hcom, hlog]
  simp only [applyHiLo, List.foldl_append, List.foldl_cons, List.foldl_nil]

/-- A load that is in `mem` when `id` hands over has its own data: the bus acknowledges its
transaction in this cycle. -/
theorem load_has_data (regs : RegFile) (is : List CpuIn) (i : CpuIn)
    (h : HandsOver (Cpu.run regs is) i)
    (hload : is_load (Cpu.run regs is).ex_mem.mem_aluop = true) :
    (Cpu.run regs is).dbus.wishbone_state = .WB_BUSY ∧ i.dwishbone.wishbone_ack_i = true ∧
      Latched (Cpu.run regs is) ∧
      (Cpu.run regs is).ram_data i = i.dwishbone.wishbone_data_i := by
  have hg := good_run regs is
  have hc : mem_ce_o (Cpu.run regs is).ex_mem = true := by
    unfold mem_ce_o
    rw [hload]
    rfl
  have hw : mem_we (Cpu.run regs is).ex_mem = false := by
    unfold is_load at hload
    unfold mem_we is_store
    cases ha : (Cpu.run regs is).ex_mem.mem_aluop <;> simp [ha] at hload ⊢
  obtain ⟨hd, hk⟩ :=
    leavesMem_access hg (leavesMem_of_exHandsOver (exHandsOver_of_handsOver h)) hc
  exact ⟨hd, hk, (hg.data_busy hd).2, ram_data_of_ack hg hd hk hw⟩

/-! ## The main result -/

/-- A read port that is in use, for a register other than `$0`, has the register's value. -/
def SourceFits (read : Bool) (addr : RegAddr) (value : Word) (regs : RegFile) : Prop :=
  read = true → addr ≠ NOPRegAddr → value = regs addr

/-- In every reachable state, the operands that `id` hands over are the values after the
writes of the instructions in `wb`, `mem` and `ex`; these are the values after all writes
that have left `mem` since reset; a load among them has its own data; and the HI/LO pair
that `ex` sees when it hands over is the pair that all older instructions leave. -/
theorem forwarding_is_sequential (regs : RegFile) (is : List CpuIn) (i : CpuIn) :
    (HandsOver (Cpu.run regs is) i →
      SourceFits (Cpu.run regs is).dec.reg1_read_o (Cpu.run regs is).dec.reg1_addr_o
          ((Cpu.run regs is).reg1_o i)
          (applyWrites (Cpu.run regs is).regs (older (Cpu.run regs is) i)) ∧
        SourceFits (Cpu.run regs is).dec.reg2_read_o (Cpu.run regs is).dec.reg2_addr_o
          ((Cpu.run regs is).reg2_o i)
          (applyWrites (Cpu.run regs is).regs (older (Cpu.run regs is) i)) ∧
        applyWrites (Cpu.run regs is).regs (older (Cpu.run regs is) i) =
          applyWrites regs (retiredLog regs (is ++ [i])) ∧
        (is_load (Cpu.run regs is).ex_mem.mem_aluop = true →
          (Cpu.run regs is).dbus.wishbone_state = .WB_BUSY ∧ i.dwishbone.wishbone_ack_i = true ∧
            Latched (Cpu.run regs is) ∧
            (Cpu.run regs is).ram_data i = i.dwishbone.wishbone_data_i)) ∧
    (ExHandsOver (Cpu.run regs is) i →
      (Cpu.run regs is).hilo =
          applyHiLo ((Cpu.run regs is).hi_o, (Cpu.run regs is).lo_o) (olderHiLo (Cpu.run regs is)) ∧
        (Cpu.run regs is).hilo =
          applyHiLo (ZeroWord, ZeroWord) (retiredHiLoLog regs (is ++ [i]))) := by
  constructor
  · intro h
    refine ⟨?_, ?_, older_eq_retired regs is i h, load_has_data regs is i h⟩
    · intro hread hr
      exact reg1_o_eq_older h hread hr
    · intro hread hr
      exact reg2_o_eq_older h hread hr
  · intro h
    exact ⟨hilo_eq_older _, olderHiLo_eq_retired regs is i h⟩

/-- `lw $1, 0($0)` and `addu $2, $1, $1`, up to the cycle in which both buses answer. -/
def loadUseRun : List CpuIn :=
  [.quiet, .quiet, .fetched 0x8C010000#32, .quiet, .fetched 0x00211021#32, .quiet, .quiet]

def loadUseEdge : CpuIn := ⟨0x00#8, ⟨ZeroWord, true⟩, ⟨0x12345678#32, true⟩⟩

theorem forwarding_of_loadUse :
    (Cpu.run (fun _ => ZeroWord) loadUseRun).reg1_o loadUseEdge =
        applyWrites (Cpu.run (fun _ => ZeroWord) loadUseRun).regs
          (older (Cpu.run (fun _ => ZeroWord) loadUseRun) loadUseEdge)
          (Cpu.run (fun _ => ZeroWord) loadUseRun).dec.reg1_addr_o ∧
      (Cpu.run (fun _ => ZeroWord) loadUseRun).ram_data loadUseEdge = 0x12345678#32 ∧
      (Cpu.run (fun _ => ZeroWord) loadUseRun).hilo =
        applyHiLo (ZeroWord, ZeroWord)
          (retiredHiLoLog (fun _ => ZeroWord) (loadUseRun ++ [loadUseEdge])) := by
  obtain ⟨hid, hex⟩ := forwarding_is_sequential (fun _ => ZeroWord) loadUseRun loadUseEdge
  have h : HandsOver (Cpu.run (fun _ => ZeroWord) loadUseRun) loadUseEdge := by decide +kernel
  obtain ⟨h1, _, _, hload⟩ := hid h
  refine ⟨h1 (by decide +kernel) (by decide +kernel), ?_, (hex (by decide +kernel)).2⟩
  exact (hload (by decide +kernel)).2.2.2

end nehcpu.cpu
