-- The data bus carries every load and every store exactly once. The log of what
-- the bus acknowledges is compared with the log of what leaves `mem`, edge by edge.
import Nehcpu.Cpu.Invariant

namespace nehcpu.cpu

open machine

/-- An access of the data bus: where, which bytes, and the word that was moved. -/
inductive Access
  | read (addr : Word) (sel : BitVec 4) (data : Word)
  | write (addr : Word) (sel : BitVec 4) (data : Word)
deriving DecidableEq, Repr

/-! ## The two logs -/

/-- The transaction that the bus acknowledges in this cycle, as the bus sees it. -/
def acked (s : Cpu) (i : CpuIn) : List Access :=
  if s.dbus.wishbone_stb_o && s.dbus.wishbone_cyc_o && i.dwishbone.wishbone_ack_i then
    if s.dbus.wishbone_we_o then
      [.write s.dbus.wishbone_addr_o s.dbus.wishbone_sel_o s.dbus.wishbone_data_o]
    else [.read s.dbus.wishbone_addr_o s.dbus.wishbone_sel_o i.dwishbone.wishbone_data_i]
  else []

/-- The instruction in `mem` moves to write back at this edge. -/
def leavesMem (s : Cpu) (i : CpuIn) : Bool := !s.flush && !getElem (s.stall i) 4 stall4_lt

/-- The access of the load or store that leaves `mem`, from its own address, byte selects
and store data. For a load, `ram_data` is the word that it takes its bytes from. -/
def completed (s : Cpu) (i : CpuIn) : List Access :=
  if leavesMem s i && mem_ce_o s.ex_mem then
    if mem_we s.ex_mem then
      [.write (phy_wb_addr s.data_vir2phy.physical_addr) (mem_sel_o s.ex_mem)
        (mem_data_o ZeroWord s.ex_mem)]
    else
      [.read (phy_wb_addr s.data_vir2phy.physical_addr) (mem_sel_o s.ex_mem) (s.ram_data i)]
  else []

/-- No flush hits an access in progress. -/
def Calm (s : Cpu) (_ : CpuIn) : Prop :=
  ¬ (s.flush = true ∧ s.dbus.wishbone_state = .WB_BUSY)

instance (s : Cpu) (i : CpuIn) : Decidable (Calm s i) := instDecidableNot

/-! ## One edge -/

variable {s : Cpu} {i : CpuIn}

/-- The data of a store does not come from the latch. -/
theorem mem_data_o_of_store (held held' : Word) (m : ExMem) (h : mem_we m = true) :
    mem_data_o held m = mem_data_o held' m := by
  unfold mem_we is_store at h
  unfold mem_data_o
  cases ha : m.mem_aluop <;> simp [ha] at h ⊢

/-- Without a strobe nothing is acknowledged. -/
theorem acked_of_not_busy (h : Good s) (hd : s.dbus.wishbone_state ≠ .WB_BUSY) :
    acked s i = [] := by
  have hs := h.strobe
  unfold StrobeFits at hs
  unfold acked
  rw [hs]
  simp [hd]

/-- A load or a store stays in `mem` until the bus acknowledges it. -/
theorem leavesMem_access (h : Good s) (hl : leavesMem s i = true)
    (hc : mem_ce_o s.ex_mem = true) :
    s.dbus.wishbone_state = .WB_BUSY ∧ i.dwishbone.wishbone_ack_i = true := by
  unfold leavesMem at hl
  rw [Bool.and_eq_true, Bool.not_eq_true', Bool.not_eq_true'] at hl
  obtain ⟨hf, hst⟩ := hl
  have hm := (Cpu.stall_mem_iff hf).1 hst
  rcases hd : s.dbus.wishbone_state with _ | _ | _
  · simp [Cpu.stallreq_from_mem, WbBus.stallreq, hd, hc, hf] at hm
  · refine ⟨rfl, ?_⟩
    simpa [Cpu.stallreq_from_mem, WbBus.stallreq, hd] using hm
  · rw [h.data_wait hd] at hc
    cases hc

/-- The edge that acknowledges an access is the edge at which it leaves `mem`. -/
theorem leavesMem_of_ack (hf : s.flush = false) (hd : s.dbus.wishbone_state = .WB_BUSY)
    (ha : i.dwishbone.wishbone_ack_i = true) : leavesMem s i = true := by
  have hm : s.stallreq_from_mem i = false := by
    simp [Cpu.stallreq_from_mem, WbBus.stallreq, hd, ha]
  unfold leavesMem
  rw [hf, (Cpu.stall_mem_iff hf).2 hm]
  rfl

/-- The word that a load takes is the one that its own transaction brings. -/
theorem ram_data_of_ack (h : Good s) (hd : s.dbus.wishbone_state = .WB_BUSY)
    (ha : i.dwishbone.wishbone_ack_i = true) (hw : mem_we s.ex_mem = false) :
    s.ram_data i = i.dwishbone.wishbone_data_i := by
  have hl := (h.data_busy hd).2.we
  simp [Cpu.ram_data, WbBus.cpu_data_o, hd, ha, hl, hw]

theorem acked_eq_completed (h : Good s) (hcalm : Calm s i) : acked s i = completed s i := by
  by_cases hd : s.dbus.wishbone_state = .WB_BUSY
  · have hf : s.flush = false := by
      rw [← Bool.not_eq_true]
      exact fun hf => hcalm ⟨hf, hd⟩
    obtain ⟨hc, hl⟩ := h.data_busy hd
    have hs : (s.dbus.wishbone_stb_o && s.dbus.wishbone_cyc_o) = true := by
      have := h.strobe
      unfold StrobeFits at this
      rw [this, hd]
      rfl
    unfold acked completed
    rw [hs, hl.addr, hl.sel, hl.we, hc, Bool.true_and, Bool.and_true]
    rcases Bool.eq_false_or_eq_true i.dwishbone.wishbone_ack_i with ha | ha
    · rw [leavesMem_of_ack hf hd ha, ha]
      rcases Bool.eq_false_or_eq_true (mem_we s.ex_mem) with hw | hw
      · rw [hw, hl.data, mem_data_o_of_store _ ZeroWord _ hw]
        rfl
      · rw [hw, ram_data_of_ack h hd ha hw]
        rfl
    · have hn : leavesMem s i = false := by
        rw [← Bool.not_eq_true]
        intro hlv
        rw [(leavesMem_access h hlv hc).2] at ha
        cases ha
      rw [hn, ha]
      rfl
  · rw [acked_of_not_busy h hd]
    unfold completed
    by_cases hc : (leavesMem s i && mem_ce_o s.ex_mem) = true
    · rw [Bool.and_eq_true] at hc
      exact absurd (leavesMem_access h hc.1 hc.2).1 hd
    · rw [if_neg hc]

/-! ## Every run -/

/-- In every run in which no flush hits an access in progress, the transactions that the
data bus acknowledges are the loads and stores that leave `mem`: the same number, in the
same order, with their own addresses, byte selects and data. -/
theorem bus_carries_each_access_once (regs : RegFile) (is : List CpuIn)
    (h : StepsMeet Cpu.step Calm (Cpu.reset regs) is) :
    logFrom Cpu.step acked (Cpu.reset regs) is = logFrom Cpu.step completed (Cpu.reset regs) is :=
  logs_agree (fun s i hg _ => good_step s i hg) (fun _ _ hg hc => acked_eq_completed hg hc)
    (good_reset regs) h

/-- `lw $1, 0($0)`, whose access waits for one cycle. -/
def lwRun : List CpuIn :=
  [.quiet, .quiet, .fetched 0x8C010000#32, .quiet, .fetched ZeroWord, .quiet, .quiet, .quiet,
    .loaded 0x12345678#32, .quiet]

theorem bus_carries_the_lw :
    logFrom Cpu.step acked (Cpu.reset fun _ => ZeroWord) lwRun =
        [.read ZeroWord 0b1111#4 0x12345678#32] ∧
      logFrom Cpu.step acked (Cpu.reset fun _ => ZeroWord) lwRun =
        logFrom Cpu.step completed (Cpu.reset fun _ => ZeroWord) lwRun :=
  ⟨by decide +kernel, bus_carries_each_access_once _ _ (by decide +kernel)⟩

end nehcpu.cpu
