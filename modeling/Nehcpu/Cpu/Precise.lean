-- Precise exceptions. What a flush leaves of the instruction in `mem` and of the
-- younger ones, counted from any cycle since that instruction came to `mem`. Two
-- units have no gate for the exception: the TLB write port looks at the operation
-- alone, and a bus access that has been put on the bus is not taken back in time.
import Nehcpu.Cpu.Forwarding

namespace nehcpu.cpu

open machine

/-! ## What an instruction can touch -/

/-- The bus addresses at which this cycle can change a RAM word or a device register: a
write strobe, or a read strobe at an address of `readActs`, whose registers a read changes. -/
def touches (readActs : Word → Bool) (s : Cpu) (_ : CpuIn) : List Word :=
  (if s.dbus.wishbone_stb_o && s.dbus.wishbone_cyc_o &&
      (s.dbus.wishbone_we_o || readActs s.dbus.wishbone_addr_o) then
    [s.dbus.wishbone_addr_o] else []) ++
  (if s.ibus.wishbone_stb_o && s.ibus.wishbone_cyc_o && s.ibus.wishbone_we_o then
    [s.ibus.wishbone_addr_o] else [])

/-- CP0 as time and the instruction in write back leave it: the counter and the pending
interrupts of every cycle, and the write of that instruction at the first edge. -/
def cp0Older : Cp0 → Cp0Write → List CpuIn → Cp0
  | c, _, [] => c
  | c, w, i :: is => cp0Older ((c.tick i.int_i).write w) .off is

/-- Where the handler returns to: the instruction, or the branch before it. -/
def restartAddr (m : ExMem) : Word :=
  if m.mem_is_in_delayslot then m.mem_current_inst_addr - 4#32 else m.mem_current_inst_addr

/-- From the state `s₀`, over the cycles `ks` and the flush in the cycle `i`, only the
instruction that `s₀` has in write back, and the exception entry, change anything. -/
structure Untouched (readActs : Word → Bool) (s₀ : Cpu) (ks : List CpuIn) (i : CpuIn) :
    Prop where
  regs : (runFrom Cpu.step s₀ (ks ++ [i])).regs = applyWrites s₀.regs [s₀.mem_wb.wb_reg]
  hilo : ((runFrom Cpu.step s₀ (ks ++ [i])).hi_o, (runFrom Cpu.step s₀ (ks ++ [i])).lo_o) =
    applyHiLo (s₀.hi_o, s₀.lo_o) [s₀.mem_wb.wb_hilo]
  cp0 : (runFrom Cpu.step s₀ (ks ++ [i])).cp0 =
    (cp0Older s₀.cp0 s₀.mem_wb.wb_cp0 (ks ++ [i])).except
      (runFrom Cpu.step s₀ ks).excepttype (runFrom Cpu.step s₀ ks).exc_info
  tlb : (runFrom Cpu.step s₀ (ks ++ [i])).tlb = s₀.tlb
  bus : logFrom Cpu.step (touches readActs) s₀ (ks ++ [i]) = []
  /-- nothing of these instructions is on its way any more -/
  gone : (runFrom Cpu.step s₀ (ks ++ [i])).stages = ⟨.clear, .clear, .clear, .clear⟩ ∧
    (runFrom Cpu.step s₀ (ks ++ [i])).dbus.wishbone_state = .WB_IDLE
  epc : (runFrom Cpu.step s₀ ks).excepttype ≠ .eret →
    (runFrom Cpu.step s₀ (ks ++ [i])).cp0.epc_o = restartAddr (runFrom Cpu.step s₀ ks).ex_mem

/-- The instruction in `mem` stays there at this edge. -/
def Stays (s : Cpu) (i : CpuIn) : Prop := getElem (s.stall i) 4 stall4_lt = true

instance (s : Cpu) (i : CpuIn) : Decidable (Stays s i) := inferInstanceAs (Decidable (_ = _))

/-- At the flush, no TLBWI in `mem` has another entry to write, and no access of the
instruction in `mem` that changes anything is on the bus. -/
def CleanFlush (readActs : Word → Bool) (s : Cpu) : Prop :=
  (s.ex_mem.mem_aluop = .TLBWI →
    s.tlb s.tlb_write.tlb_write_index = s.tlb_write.tlb_write_entry) ∧
  (s.dbus.wishbone_state = .WB_BUSY →
    s.dbus.wishbone_we_o = false ∧ readActs s.dbus.wishbone_addr_o = false)

variable {s : Cpu} {i : CpuIn}

/-! ## The fetch bus only reads -/

def FetchReads (s : Cpu) : Prop := s.ibus.wishbone_we_o = false

theorem fetchReads_step (s : Cpu) (i : CpuIn) (h : FetchReads s) : FetchReads (s.step i) := by
  have hn : (s.step i).ibus = s.ibus.next (s.stall i) s.flush s.inst_req i.iwishbone := rfl
  unfold FetchReads at h ⊢
  rw [hn]
  unfold WbBus.next
  split
  · split
    · rfl
    · exact h
  · split
    · rfl
    · split
      · rfl
      · exact h
  · split
    · exact h
    · exact h

theorem fetchReads_run (regs : RegFile) (is : List CpuIn) : FetchReads (Cpu.run regs is) :=
  invariant_of_anyRun fetchReads_step is rfl

/-- With the fetch reading, a cycle touches something exactly when the data bus does. -/
theorem touches_eq_nil_iff (readActs : Word → Bool) (h : Good s) (hfetch : FetchReads s) :
    touches readActs s i = [] ↔
      (s.dbus.wishbone_state = .WB_BUSY →
        s.dbus.wishbone_we_o = false ∧ readActs s.dbus.wishbone_addr_o = false) := by
  have hs := h.strobe
  unfold StrobeFits at hs
  unfold FetchReads at hfetch
  unfold touches
  rw [hs, hfetch]
  by_cases hd : s.dbus.wishbone_state = .WB_BUSY
  · simp [hd]
  · simp [hd]

/-! ## While the instruction stays in `mem` -/

theorem flush_of_stays (h : Stays s i) : s.flush = false := by
  rw [← Bool.not_eq_true]
  intro hf
  unfold Stays at h
  rw [Cpu.stall_of_flush hf] at h
  cases h

theorem memStall_of_stays (h : Stays s i) : s.stallreq_from_mem i = true := by
  have hf := flush_of_stays h
  by_contra hm
  rw [Bool.not_eq_true] at hm
  have hst := (Cpu.stall_mem_iff hf).2 hm
  unfold Stays at h
  rw [h] at hst
  cases hst

/-- Only a load or a store stays. -/
theorem access_of_stays (hg : Good s) (h : Stays s i) : mem_ce_o s.ex_mem = true := by
  have hm := memStall_of_stays h
  rcases hd : s.dbus.wishbone_state with _ | _ | _
  · simp [Cpu.stallreq_from_mem, WbBus.stallreq, hd, flush_of_stays h] at hm
    exact hm
  · exact (hg.data_busy hd).1
  · simp [Cpu.stallreq_from_mem, WbBus.stallreq, hd] at hm

theorem tlb_of_stays (hg : Good s) (h : Stays s i) : (s.step i).tlb = s.tlb := by
  apply Tlb.next_disabled
  have hc := access_of_stays hg h
  have hne : s.ex_mem.mem_aluop ≠ .TLBWI := by
    intro he
    simp [mem_ce_o, is_load, is_store, he] at hc
  simpa [Cpu.tlb_write, tlb_write_struct_o] using hne

theorem leavesMem_of_stays (h : Stays s i) : leavesMem s i = false := by
  unfold Stays at h
  unfold leavesMem
  rw [h]
  simp

theorem leavesMem_of_flush (h : s.flush = true) : leavesMem s i = false := by
  unfold leavesMem
  rw [h]
  rfl

theorem wb_of_not_leaves (h : leavesMem s i = false) : (s.step i).mem_wb = .clear := by
  rw [wb_after, h]
  rfl

theorem cp0_of_stays (h : Stays s i) :
    (s.step i).cp0 = (s.cp0.tick i.int_i).write s.mem_wb.wb_cp0 := by
  have hn : s.excepttype = .none := by simpa [Cpu.flush] using flush_of_stays h
  have hc : (s.step i).cp0 = s.cp0.next i.int_i s.mem_wb.wb_cp0 s.excepttype s.exc_info := rfl
  rw [hc, hn]
  rfl

/-- An access that is on the bus stays on the bus with the instruction. -/
theorem dbus_of_stays (h : Stays s i) (hd : s.dbus.wishbone_state = .WB_BUSY) :
    (s.step i).dbus = s.dbus := by
  have ha : i.dwishbone.wishbone_ack_i = false := by
    simpa [Cpu.stallreq_from_mem, WbBus.stallreq, hd] using memStall_of_stays h
  exact WbBus.next_busy_stay hd ha (flush_of_stays h)

/-! ## The same over many cycles -/

theorem tlb_of_stays_run (ks : List CpuIn) (s : Cpu) (hg : Good s)
    (h : StepsMeet Cpu.step Stays s ks) : (runFrom Cpu.step s ks).tlb = s.tlb := by
  induction ks generalizing s with
  | nil => rfl
  | cons k ks ih => exact (ih _ (good_step s k hg) h.2).trans (tlb_of_stays hg h.1)

theorem retired_of_stays_run (ks : List CpuIn) (s : Cpu)
    (h : StepsMeet Cpu.step Stays s ks) :
    logFrom Cpu.step retired s ks = [] ∧ logFrom Cpu.step retiredHiLo s ks = [] := by
  induction ks generalizing s with
  | nil => exact ⟨rfl, rfl⟩
  | cons k ks ih =>
    obtain ⟨h1, h2⟩ := ih _ h.2
    have hl := leavesMem_of_stays h.1
    constructor
    · simp [logFrom, retired, hl, h1]
    · simp [logFrom, retiredHiLo, hl, h2]

/-- The CP0 registers after the cycles, and after one more edge without its exception. -/
theorem cp0_of_stays_run (ks : List CpuIn) (s : Cpu) (h : StepsMeet Cpu.step Stays s ks)
    (i : CpuIn) :
    cp0Older s.cp0 s.mem_wb.wb_cp0 (ks ++ [i]) =
      ((runFrom Cpu.step s ks).cp0.tick i.int_i).write (runFrom Cpu.step s ks).mem_wb.wb_cp0 := by
  induction ks generalizing s with
  | nil => rfl
  | cons k ks ih =>
    have hw : (s.step k).mem_wb.wb_cp0 = .off := by
      rw [wb_of_not_leaves (leavesMem_of_stays h.1)]
      rfl
    have hnext := ih _ h.2
    rw [cp0_of_stays h.1, hw] at hnext
    exact hnext

/-- What the first of these cycles has on the bus, the last one has too. -/
theorem quiet_of_stays_run (readActs : Word → Bool) (ks : List CpuIn) (s : Cpu) (hg : Good s)
    (hfetch : FetchReads s) (h : StepsMeet Cpu.step Stays s ks)
    (hq : (runFrom Cpu.step s ks).dbus.wishbone_state = .WB_BUSY →
      (runFrom Cpu.step s ks).dbus.wishbone_we_o = false ∧
        readActs (runFrom Cpu.step s ks).dbus.wishbone_addr_o = false) :
    logFrom Cpu.step (touches readActs) s ks = [] ∧
      (s.dbus.wishbone_state = .WB_BUSY →
        s.dbus.wishbone_we_o = false ∧ readActs s.dbus.wishbone_addr_o = false) := by
  induction ks generalizing s with
  | nil => exact ⟨rfl, hq⟩
  | cons k ks ih =>
    obtain ⟨hlog, hnext⟩ := ih _ (good_step s k hg) (fetchReads_step s k hfetch) h.2 hq
    have hnow : s.dbus.wishbone_state = .WB_BUSY →
        s.dbus.wishbone_we_o = false ∧ readActs s.dbus.wishbone_addr_o = false := by
      intro hd
      rw [dbus_of_stays h.1 hd] at hnext
      exact hnext hd
    refine ⟨?_, hnow⟩
    simp only [logFrom]
    rw [(touches_eq_nil_iff readActs hg hfetch).2 hnow, hlog]
    rfl

/-! ## The flush -/

theorem tlb_next_eq_iff (tlb : Tlb) (w : TlbWrite) :
    tlb.next w = tlb ↔ (w.tlb_write_enable = true → tlb w.tlb_write_index = w.tlb_write_entry) := by
  unfold Tlb.next
  by_cases hw : w.tlb_write_enable = true
  · rw [if_pos hw]
    constructor
    · intro h _
      have hi := congrFun h w.tlb_write_index
      rw [if_pos rfl] at hi
      exact hi.symm
    · intro h
      funext j
      by_cases hj : j = w.tlb_write_index
      · rw [if_pos hj, hj, h hw]
      · rw [if_neg hj]
  · rw [if_neg hw]
    exact ⟨fun _ he => absurd he hw, fun _ => rfl⟩

/-- Every exception but ERET saves the address to return to. -/
theorem epc_of_except (c : Cp0) (e : Except) (x : ExcInfo) (h1 : e ≠ .none) (h2 : e ≠ .eret) :
    (c.except e x).epc_o =
      if x.is_in_delayslot_i then x.current_inst_addr_i - 4#32 else x.current_inst_addr_i := by
  cases e with
  | none => exact absurd rfl h1
  | eret => exact absurd rfl h2
  | _ => rfl

/-- A `syscall`, up to the cycle in which `mem` takes its exception. -/
def syscallRun : List CpuIn :=
  [.quiet, .quiet, .fetched 0x0000000C#32, .quiet, .fetched ZeroWord, .quiet]

/-- `addiu $1, $0, 0x401`, `mtc0 $1` to ENTRYLO0 and to STATUS, and `tlbwi`, with an interrupt
that becomes pending when the last one comes to `mem`. -/
def tlbwiRun : List CpuIn :=
  [.quiet, .quiet, .fetched 0x24010401#32, .quiet, .fetched 0x40811000#32, .quiet,
    .fetched 0x40816000#32, .quiet, .fetched 0x42000002#32, .quiet, .fetched ZeroWord,
    { CpuIn.quiet with int_i := 0x04#8 }]

end nehcpu.cpu
