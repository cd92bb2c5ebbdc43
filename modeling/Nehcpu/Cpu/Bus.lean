-- The bus master `wishbone_bus.v`, of which the CPU has two: one fetches, the
-- other serves the memory stage.
import Nehcpu.Cpu.Defines

namespace nehcpu.cpu

inductive WbState
  | WB_IDLE | WB_BUSY | WB_WAIT_FOR_STALL
deriving DecidableEq, Repr

/-- The registers of the master. -/
structure WbBus where
  wishbone_state : WbState
  wishbone_addr_o : Word
  wishbone_data_o : Word
  wishbone_we_o : Bool
  wishbone_sel_o : BitVec 4
  wishbone_stb_o : Bool
  wishbone_cyc_o : Bool
  rd_buf : Word
deriving DecidableEq, Repr

/-- What the CPU asks of the master. -/
structure CpuReq where
  cpu_ce_i : Bool
  cpu_data_i : Word
  cpu_addr_i : Word
  cpu_we_i : Bool
  cpu_sel_i : BitVec 4
deriving DecidableEq, Repr

/-- What the bus answers. -/
structure WbAnswer where
  wishbone_data_i : Word
  wishbone_ack_i : Bool
deriving DecidableEq, Repr

/-- The address on the bus for a physical address: RAM, flash, ROM, UART, VGA and the
board registers, and zero for every other one. -/
def phy_wb_addr (cpu_addr_i : Word) : Word :=
  if cpu_addr_i.extractLsb' 23 9 = 0#9 then cpu_addr_i
  else if cpu_addr_i.extractLsb' 24 8 = 0x1E#8 then 0x10#8 ++ cpu_addr_i.extractLsb' 0 24
  else if cpu_addr_i.extractLsb' 12 20 = 0x1FC00#20 then 0x20000#20 ++ cpu_addr_i.extractLsb' 0 12
  else if cpu_addr_i.extractLsb' 4 28 = 0x1FD003F#28 then
    0x3#4 ++ 0#25 ++ cpu_addr_i.extractLsb' 0 3
  else if cpu_addr_i.extractLsb' 24 8 = 0x1A#8 then 0x40#8 ++ cpu_addr_i.extractLsb' 0 24
  else if cpu_addr_i.extractLsb' 24 8 = 0x0F#8 then 0x50#8 ++ cpu_addr_i.extractLsb' 0 24
  else ZeroWord

namespace WbBus

def reset : WbBus := ⟨.WB_IDLE, ZeroWord, ZeroWord, false, 0b0000#4, false, false, ZeroWord⟩

/-- The outputs to the bus go back to their reset values. -/
def release (b : WbBus) : WbBus :=
  { b with
    wishbone_addr_o := ZeroWord, wishbone_data_o := ZeroWord, wishbone_we_o := false,
    wishbone_sel_o := 0b0000#4, wishbone_stb_o := false, wishbone_cyc_o := false }

/-- The registers after a clock edge. -/
def next (b : WbBus) (stall_i : BitVec 6) (flush_i : Bool) (r : CpuReq) (a : WbAnswer) : WbBus :=
  match b.wishbone_state with
  | .WB_IDLE =>
    if r.cpu_ce_i = true ∧ flush_i = false then
      ⟨.WB_BUSY, phy_wb_addr r.cpu_addr_i, r.cpu_data_i, r.cpu_we_i, r.cpu_sel_i, true, true,
        ZeroWord⟩
    else b
  | .WB_BUSY =>
    if a.wishbone_ack_i then
      { b.release with
        rd_buf := if r.cpu_we_i then b.rd_buf else a.wishbone_data_i
        wishbone_state := if stall_i ≠ 0b000000#6 then .WB_WAIT_FOR_STALL else .WB_IDLE }
    else if flush_i then { b.release with wishbone_state := .WB_IDLE, rd_buf := ZeroWord }
    else b
  | .WB_WAIT_FOR_STALL =>
    if stall_i = 0b000000#6 then { b with wishbone_state := .WB_IDLE } else b

/-- `stallreq` -/
def stallreq (b : WbBus) (flush_i : Bool) (cpu_ce_i wishbone_ack_i : Bool) : Bool :=
  match b.wishbone_state with
  | .WB_IDLE => cpu_ce_i && !flush_i
  | .WB_BUSY => !wishbone_ack_i
  | .WB_WAIT_FOR_STALL => false

/-- `cpu_data_o`, which keeps the value `held` while the master has nothing to do. -/
def cpu_data_o (held : Word) (b : WbBus) (flush_i : Bool) (cpu_ce_i : Bool) (a : WbAnswer) :
    Word :=
  match b.wishbone_state with
  | .WB_IDLE => if cpu_ce_i = true ∧ flush_i = false then ZeroWord else held
  | .WB_BUSY =>
    if a.wishbone_ack_i then if b.wishbone_we_o then ZeroWord else a.wishbone_data_i
    else ZeroWord
  | .WB_WAIT_FOR_STALL => b.rd_buf

/-! ## One edge, state by state -/

variable {b : WbBus} {stall_i : BitVec 6} {flush_i : Bool} {r : CpuReq} {a : WbAnswer}

theorem next_idle_request (hs : b.wishbone_state = .WB_IDLE) (hc : r.cpu_ce_i = true)
    (hf : flush_i = false) :
    b.next stall_i flush_i r a =
      ⟨.WB_BUSY, phy_wb_addr r.cpu_addr_i, r.cpu_data_i, r.cpu_we_i, r.cpu_sel_i, true, true,
        ZeroWord⟩ := by
  simp only [next, hs, hc, hf, and_self, ↓reduceIte]

theorem next_idle_quiet (hs : b.wishbone_state = .WB_IDLE)
    (h : r.cpu_ce_i = false ∨ flush_i = true) : b.next stall_i flush_i r a = b := by
  rcases h with h | h
  · simp only [next, hs, h, Bool.false_eq_true, false_and, ↓reduceIte]
  · simp only [next, hs, h, Bool.true_eq_false, and_false, ↓reduceIte]

theorem next_busy_ack (hs : b.wishbone_state = .WB_BUSY) (ha : a.wishbone_ack_i = true) :
    b.next stall_i flush_i r a =
      { b.release with
        rd_buf := if r.cpu_we_i then b.rd_buf else a.wishbone_data_i
        wishbone_state := if stall_i ≠ 0b000000#6 then .WB_WAIT_FOR_STALL else .WB_IDLE } := by
  simp only [next, hs, ha, ↓reduceIte]

theorem next_busy_flush (hs : b.wishbone_state = .WB_BUSY) (ha : a.wishbone_ack_i = false)
    (hf : flush_i = true) :
    b.next stall_i flush_i r a =
      { b.release with wishbone_state := .WB_IDLE, rd_buf := ZeroWord } := by
  simp only [next, hs, ha, hf, Bool.false_eq_true, ↓reduceIte]

theorem next_busy_stay (hs : b.wishbone_state = .WB_BUSY) (ha : a.wishbone_ack_i = false)
    (hf : flush_i = false) : b.next stall_i flush_i r a = b := by
  simp only [next, hs, ha, hf, Bool.false_eq_true, ↓reduceIte]

theorem next_wait_run (hs : b.wishbone_state = .WB_WAIT_FOR_STALL) (h : stall_i = 0b000000#6) :
    b.next stall_i flush_i r a = { b with wishbone_state := .WB_IDLE } := by
  simp only [next, hs, h, ↓reduceIte]

theorem next_wait_stay (hs : b.wishbone_state = .WB_WAIT_FOR_STALL) (h : stall_i ≠ 0b000000#6) :
    b.next stall_i flush_i r a = b := by
  simp only [next, hs, h, ↓reduceIte]

/-- Under a stall the master does not become idle. -/
theorem next_state_of_stall (hs : b.wishbone_state ≠ .WB_IDLE) (h : stall_i ≠ 0b000000#6) :
    (b.next stall_i false r a).wishbone_state ≠ .WB_IDLE := by
  rcases hb : b.wishbone_state with _ | _ | _
  · exact absurd hb hs
  · cases ha : a.wishbone_ack_i
    · rw [next_busy_stay hb ha rfl, hb]
      decide
    · rw [next_busy_ack hb ha]
      simp [h]
  · rw [next_wait_stay hb h, hb]
    decide

/-- With no stall the master ends up idle. -/
theorem next_state_of_noStall (h : stall_i = 0b000000#6)
    (hq : b.stallreq flush_i r.cpu_ce_i a.wishbone_ack_i = false ∨ flush_i = true) :
    (b.next stall_i flush_i r a).wishbone_state = .WB_IDLE := by
  rcases hs : b.wishbone_state with _ | _ | _
  · rw [next_idle_quiet hs]
    · exact hs
    · rcases hq with hq | hq
      · simp only [stallreq, hs] at hq
        cases hc : r.cpu_ce_i
        · exact Or.inl rfl
        · exact Or.inr (by simpa [hc] using hq)
      · exact Or.inr hq
  · cases ha : a.wishbone_ack_i
    · rcases hq with hq | hq
      · simp [stallreq, hs, ha] at hq
      · rw [next_busy_flush hs ha hq]
    · rw [next_busy_ack hs ha]
      simp [h]
  · rw [next_wait_run hs h]

end WbBus

end nehcpu.cpu
