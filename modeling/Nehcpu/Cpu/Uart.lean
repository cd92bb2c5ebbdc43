-- The serial port `uart_controller.v` behind a bus master: which bytes of its receive buffer the reads
-- take, and which bytes the writes hand to the transmitter.
import Nehcpu.Lib.Machine
import Nehcpu.Cpu.Bus

namespace nehcpu.cpu.uart

open machine

abbrev Byte := BitVec 8

/-! ## The port -/

/-- The entries of the receive buffer `scfifo`. -/
def depth : Nat := 16

/-- The state of `uart_async_transmitter`. -/
structure Transmitter where
  TxD_state : BitVec 4
  TxD_shift : Byte
deriving DecidableEq, Repr

/-- The registers of the controller, its receive buffer with the oldest byte first, and its
transmitter. -/
structure Uart where
  UART_ACK_O : Bool
  UART_DAT_O : Word
  txd_start : Bool
  txd_data : Byte
  fifo_rd : Bool
  INTR : Bool
  fifo : List Byte
  txd : Transmitter
deriving DecidableEq, Repr

/-- What the bus asks of the port. -/
structure UartReq where
  UART_CYC_I : Bool
  UART_STB_I : Bool
  UART_WE_I : Bool
  UART_ADR_I : Word
  UART_DAT_I : Word
deriving DecidableEq, Repr

/-- What comes from outside in a cycle: a byte from the receiver, a tick of the baud rate, and what
the buffer shows while it is empty. -/
structure Line where
  rxd : Option Byte
  BitTick : Bool
  held : Byte
deriving DecidableEq, Repr

namespace Transmitter

def TxD_ready (t : Transmitter) : Bool := t.TxD_state == 0b0000#4

def TxD_busy (t : Transmitter) (TxD_start : Bool) : Bool := !t.TxD_ready || TxD_start

theorem state3_lt : 3 < 4 := by decide

/-- The state after this one, once the tick has come. -/
def after (TxD_state : BitVec 4) : BitVec 4 :=
  if TxD_state = 0b0100#4 then 0b1000#4
  else if TxD_state = 0b1000#4 then 0b1001#4
  else if TxD_state = 0b1001#4 then 0b1010#4
  else if TxD_state = 0b1010#4 then 0b1011#4
  else if TxD_state = 0b1011#4 then 0b1100#4
  else if TxD_state = 0b1100#4 then 0b1101#4
  else if TxD_state = 0b1101#4 then 0b1110#4
  else if TxD_state = 0b1110#4 then 0b1111#4
  else if TxD_state = 0b1111#4 then 0b0010#4
  else if TxD_state = 0b0010#4 then 0b0011#4
  else 0b0000#4

def next (t : Transmitter) (TxD_start : Bool) (TxD_data : Byte) (BitTick : Bool) : Transmitter where
  TxD_shift :=
    if t.TxD_ready && TxD_start then TxD_data
    else if getElem t.TxD_state 3 state3_lt && BitTick then t.TxD_shift >>> 1
    else t.TxD_shift
  TxD_state :=
    if t.TxD_state = 0b0000#4 then if TxD_start then 0b0100#4 else t.TxD_state
    else if BitTick then after t.TxD_state
    else t.TxD_state

end Transmitter

namespace Uart

/-- After the bus was in reset. -/
def reset : Uart := ⟨false, ZeroWord, false, 0#8, false, false, [], ⟨0b0000#4, 0#8⟩⟩

/-- `dout`: the oldest byte falls through. -/
def fifo_dout (u : Uart) (l : Line) : Byte := u.fifo.headD l.held

def write_busy (u : Uart) : Bool := u.txd.TxD_busy u.txd_start

/-- The byte that the buffer takes in. -/
def accepts (u : Uart) (l : Line) : List Byte :=
  match l.rxd with
  | some byte => if u.fifo.length < depth then [byte] else []
  | none => []

/-- The byte that leaves the buffer. -/
def pops (u : Uart) : List Byte := if u.fifo_rd then u.fifo.take 1 else []

/-- The byte that the transmitter takes over. -/
def sends (u : Uart) : List Byte := if u.txd.TxD_ready && u.txd_start then [u.txd_data] else []

/-- The registers after a clock edge. -/
def next (u : Uart) (r : UartReq) (l : Line) : Uart :=
  let wb_acc := r.UART_CYC_I && r.UART_STB_I
  let data := r.UART_ADR_I.extractLsb' 0 3 == 0b000#3
  let starts := wb_acc && r.UART_WE_I && data && !u.write_busy
  { UART_ACK_O := wb_acc && !(r.UART_WE_I && data && u.write_busy)
    UART_DAT_O :=
      if wb_acc && !r.UART_WE_I then
        if data then (u.fifo_dout l).setWidth 32
        else 0#30 ++ BitVec.ofBool (!u.fifo.isEmpty) ++ BitVec.ofBool (!u.write_busy)
      else 0#32
    txd_start := starts
    txd_data := if starts then r.UART_DAT_I.extractLsb' 0 8 else 0#8
    fifo_rd := wb_acc && !r.UART_WE_I && data
    INTR := !u.fifo.isEmpty
    fifo := (if u.fifo_rd then u.fifo.drop 1 else u.fifo) ++ u.accepts l
    txd := u.txd.next u.txd_start u.txd_data l.BitTick }

end Uart

/-! ## The port and the master -/

structure Sys where
  bus : WbBus
  port : Uart
deriving DecidableEq, Repr

/-- The inputs of a cycle. `other` is the answer of the rest of the bus, where the address is not
that of the port. -/
structure SysIn where
  stall_i : BitVec 6
  flush_i : Bool
  req : CpuReq
  other : WbAnswer
  line : Line
deriving DecidableEq, Repr

namespace Sys

def reset : Sys := ⟨.reset, .reset⟩

/-- The interconnect gives the port the addresses that begin with 3. -/
def selected (s : Sys) : Bool := s.bus.wishbone_addr_o.extractLsb' 28 4 == 0x3#4

def uartReq (s : Sys) : UartReq where
  UART_CYC_I := s.bus.wishbone_cyc_o && s.selected
  UART_STB_I := s.bus.wishbone_stb_o && s.selected
  UART_WE_I := s.bus.wishbone_we_o
  UART_ADR_I := s.bus.wishbone_addr_o
  UART_DAT_I := s.bus.wishbone_data_o

def answer (s : Sys) (i : SysIn) : WbAnswer :=
  if s.selected then ⟨s.port.UART_DAT_O, s.port.UART_ACK_O⟩ else i.other

def step (s : Sys) (i : SysIn) : Sys :=
  ⟨s.bus.next i.stall_i i.flush_i i.req (s.answer i), s.port.next s.uartReq i.line⟩

/-- An access of the data register is on the bus. -/
def accesses (s : Sys) : Bool :=
  s.bus.wishbone_cyc_o && s.bus.wishbone_stb_o && s.selected &&
    s.bus.wishbone_addr_o.extractLsb' 0 3 == 0b000#3

end Sys

/-! ## What is compared -/

/-- The byte that a read of the data register returns when it completes. -/
def reads (s : Sys) (_ : SysIn) : List Byte :=
  if s.accesses && !s.bus.wishbone_we_o && s.port.UART_ACK_O then
    [s.port.UART_DAT_O.extractLsb' 0 8]
  else []

/-- The byte of a write of the data register that completes. -/
def writes (s : Sys) (_ : SysIn) : List Byte :=
  if s.accesses && s.bus.wishbone_we_o && s.port.UART_ACK_O then
    [s.bus.wishbone_data_o.extractLsb' 0 8]
  else []

def received (_ : Sys) (i : SysIn) : List Byte := i.line.rxd.toList

def popped (s : Sys) (_ : SysIn) : List Byte := s.port.pops

def sent (s : Sys) (_ : SysIn) : List Byte := s.port.sends

/-- While a read of the data register is on the bus no byte comes in, and where the port takes the
read up there is one byte in the buffer, and no flush. No flush hits a write that the port takes up
either. -/
def Clean (s : Sys) (i : SysIn) : Prop :=
  s.accesses = true →
    if s.bus.wishbone_we_o then
      s.port.UART_ACK_O = false → s.port.write_busy = false → i.flush_i = false
    else
      i.line.rxd = none ∧
        (s.port.UART_ACK_O = false → s.port.fifo.length = 1 ∧ i.flush_i = false)

instance (s : Sys) (i : SysIn) : Decidable (Clean s i) := by
  unfold Clean
  infer_instance

/-! ## One edge -/

/-- What the master shows on the bus goes with its state. -/
def Strobes (b : WbBus) : Prop :=
  b.wishbone_stb_o = decide (b.wishbone_state = .WB_BUSY) ∧
  b.wishbone_cyc_o = decide (b.wishbone_state = .WB_BUSY)

theorem strobes_next {b : WbBus} (h : Strobes b) (stall_i : BitVec 6) (flush_i : Bool)
    (r : CpuReq) (a : WbAnswer) : Strobes (b.next stall_i flush_i r a) := by
  unfold WbBus.next
  cases hs : b.wishbone_state with
  | WB_IDLE =>
    simp only
    split
    · exact ⟨rfl, rfl⟩
    · exact h
  | WB_BUSY =>
    simp only
    split
    · constructor
      · show false = decide ((if _ then _ else _ : WbState) = .WB_BUSY)
        split <;> rfl
      · show false = decide ((if _ then _ else _ : WbState) = .WB_BUSY)
        split <;> rfl
    · split
      · exact ⟨rfl, rfl⟩
      · exact h
  | WB_WAIT_FOR_STALL =>
    simp only
    unfold Strobes at h
    rw [hs] at h
    split
    · exact h
    · unfold Strobes
      rw [hs]
      exact h

/-- Where the port stands. An access that it has taken up is answered in the next cycle, and the
request to the buffer stays for one cycle more. -/
inductive Phase (s : Sys) : Prop
  | quiet (hr : s.port.fifo_rd = false) (ht : s.port.txd_start = false)
      (ha : s.accesses = true → s.port.UART_ACK_O = false)
  | reading (hacc : s.accesses = true) (hw : s.bus.wishbone_we_o = false)
      (ha : s.port.UART_ACK_O = true) (hr : s.port.fifo_rd = true) (ht : s.port.txd_start = false)
      (hf : ∃ byte, s.port.fifo = [byte] ∧ s.port.UART_DAT_O = byte.setWidth 32)
  | writing (hacc : s.accesses = true) (hw : s.bus.wishbone_we_o = true)
      (ha : s.port.UART_ACK_O = true) (hr : s.port.fifo_rd = false) (ht : s.port.txd_start = true)
      (hd : s.port.txd_data = s.bus.wishbone_data_o.extractLsb' 0 8)
      (hx : s.port.txd.TxD_ready = true)
  | draining (hacc : s.bus.wishbone_state ≠ .WB_BUSY) (hr : s.port.fifo_rd = true)
      (ht : s.port.txd_start = false) (hf : s.port.fifo = [])

/-- In each phase the completed accesses are those of the buffer and of the transmitter. -/
theorem Phase.logs {s : Sys} (h : Phase s) (hs : Strobes s.bus) (i : SysIn) :
    reads s i = popped s i ∧ writes s i = sent s i := by
  unfold reads popped writes sent Uart.pops Uart.sends
  cases h with
  | quiet hr ht ha =>
    rw [hr, ht]
    cases hacc : s.accesses with
    | false => simp
    | true => simp [ha hacc]
  | reading hacc hw ha hr ht hf =>
    obtain ⟨byte, hfifo, hdat⟩ := hf
    have hlow : (byte.setWidth 32).extractLsb' 0 8 = byte := by
      apply BitVec.eq_of_toNat_eq
      have hlt := byte.isLt
      simp only [BitVec.extractLsb'_toNat, BitVec.toNat_setWidth]
      omega
    rw [hacc, hw, ha, hr, ht, hfifo, hdat, hlow]
    simp
  | writing hacc hw ha hr ht hd hx =>
    rw [hacc, hw, ha, hr, ht, hd, hx]
    simp
  | draining hb hr ht hf =>
    have hacc : s.accesses = false := by
      unfold Sys.accesses
      rw [hs.1, hs.2, decide_eq_false hb]
      rfl
    rw [hacc, hr, ht, hf]
    simp

section

variable {s : Sys} {i : SysIn}

theorem busy_of_accesses (hs : Strobes s.bus) (h : s.accesses = true) :
    s.bus.wishbone_state = .WB_BUSY := by
  unfold Sys.accesses at h
  simp only [Bool.and_eq_true] at h
  have hstb := h.1.1.2
  rw [hs.1] at hstb
  exact of_decide_eq_true hstb

theorem not_accesses (hs : Strobes s.bus) (h : s.bus.wishbone_state ≠ .WB_BUSY) :
    s.accesses = false := by
  rw [← Bool.not_eq_true]
  exact fun ha => h (busy_of_accesses hs ha)

/-- How the port sees an access of the data register. -/
theorem uartReq_of_accesses (h : s.accesses = true) :
    (s.uartReq.UART_CYC_I && s.uartReq.UART_STB_I) = true ∧
      (s.uartReq.UART_ADR_I.extractLsb' 0 3 == 0b000#3) = true ∧ s.selected = true := by
  unfold Sys.accesses at h
  simp only [Bool.and_eq_true] at h
  obtain ⟨⟨⟨hc, hst⟩, hsel⟩, hd⟩ := h
  refine ⟨?_, hd, hsel⟩
  unfold Sys.uartReq
  rw [hc, hst, hsel]
  rfl

/-- Nothing is taken up where no access of the data register is on the bus. -/
theorem next_other (h : s.accesses = false) :
    (s.step i).port.fifo_rd = false ∧ (s.step i).port.txd_start = false := by
  have hnone : (s.uartReq.UART_CYC_I && s.uartReq.UART_STB_I &&
      (s.uartReq.UART_ADR_I.extractLsb' 0 3 == 0b000#3)) = false := by
    unfold Sys.accesses at h
    unfold Sys.uartReq
    cases hsel : s.selected with
    | false => simp
    | true =>
      rw [hsel] at h
      simpa using h
  unfold Sys.step Uart.next
  constructor
  · revert hnone
    cases s.uartReq.UART_CYC_I && s.uartReq.UART_STB_I <;> simp +contextual
  · revert hnone
    cases s.uartReq.UART_CYC_I && s.uartReq.UART_STB_I <;> simp +contextual

theorem next_idle (hs : Strobes s.bus) (hb : s.bus.wishbone_state ≠ .WB_BUSY) :
    (s.step i).port.UART_ACK_O = false := by
  have hstb : s.uartReq.UART_STB_I = false := by
    unfold Sys.uartReq
    rw [hs.1, decide_eq_false hb]
    rfl
  unfold Sys.step Uart.next
  simp only [hstb, Bool.and_false, Bool.false_and]

/-- The port takes up a read at once. -/
theorem next_read (h : s.accesses = true) (hw : s.bus.wishbone_we_o = false) :
    (s.step i).port.UART_ACK_O = true ∧ (s.step i).port.fifo_rd = true ∧
      (s.step i).port.txd_start = false ∧
      (s.step i).port.UART_DAT_O = (s.port.fifo_dout i.line).setWidth 32 := by
  obtain ⟨hacc, hdata, -⟩ := uartReq_of_accesses h
  have hwe : s.uartReq.UART_WE_I = false := hw
  unfold Sys.step Uart.next
  simp only [hacc, hdata, hwe, Bool.false_and, Bool.and_false, Bool.not_false, Bool.and_true,
    ↓reduceIte, and_self]

/-- It takes up a write when the transmitter is free. -/
theorem next_write (h : s.accesses = true) (hw : s.bus.wishbone_we_o = true) :
    (s.step i).port.UART_ACK_O = !s.port.write_busy ∧ (s.step i).port.fifo_rd = false ∧
      (s.step i).port.txd_start = !s.port.write_busy ∧
      (s.port.write_busy = false →
        (s.step i).port.txd_data = s.bus.wishbone_data_o.extractLsb' 0 8) := by
  obtain ⟨hacc, hdata, -⟩ := uartReq_of_accesses h
  have hwe : s.uartReq.UART_WE_I = true := hw
  unfold Sys.step Uart.next
  simp only [hacc, hdata, hwe, Bool.true_and, Bool.and_true, Bool.not_true, Bool.and_false,
    true_and]
  intro hbusy
  rw [hbusy]
  rfl

/-- An access that is answered goes off the bus. -/
theorem next_answered (hs : Strobes s.bus) (h : s.accesses = true)
    (ha : s.port.UART_ACK_O = true) : (s.step i).bus.wishbone_state ≠ .WB_BUSY := by
  have hack : (s.answer i).wishbone_ack_i = true := by
    unfold Sys.answer
    rw [if_pos (uartReq_of_accesses h).2.2]
    exact ha
  show (s.bus.next i.stall_i i.flush_i i.req (s.answer i)).wishbone_state ≠ .WB_BUSY
  rw [WbBus.next_busy_ack (busy_of_accesses hs h) hack]
  show (if i.stall_i ≠ 0b000000#6 then WbState.WB_WAIT_FOR_STALL else .WB_IDLE) ≠ .WB_BUSY
  split
  · decide
  · decide

/-- One that is not stays, unless a flush takes it away. -/
theorem next_unanswered (hs : Strobes s.bus) (h : s.accesses = true)
    (ha : s.port.UART_ACK_O = false) :
    (i.flush_i = false → (s.step i).bus = s.bus) ∧
    (i.flush_i = true → (s.step i).bus.wishbone_state ≠ .WB_BUSY) := by
  have hack : (s.answer i).wishbone_ack_i = false := by
    unfold Sys.answer
    rw [if_pos (uartReq_of_accesses h).2.2]
    exact ha
  constructor
  · intro hf
    exact WbBus.next_busy_stay (busy_of_accesses hs h) hack hf
  · intro hf
    show (s.bus.next i.stall_i i.flush_i i.req (s.answer i)).wishbone_state ≠ .WB_BUSY
    rw [WbBus.next_busy_flush (busy_of_accesses hs h) hack hf]
    exact fun hidle => nomatch hidle

/-- The master keeps what it shows until it goes off the bus. -/
theorem next_bus (hb : s.bus.wishbone_state = .WB_BUSY) :
    (s.step i).bus = s.bus ∨ (s.step i).bus.wishbone_state ≠ .WB_BUSY := by
  cases ha : (s.answer i).wishbone_ack_i with
  | true =>
    right
    show (s.bus.next i.stall_i i.flush_i i.req (s.answer i)).wishbone_state ≠ .WB_BUSY
    rw [WbBus.next_busy_ack hb ha]
    show (if i.stall_i ≠ 0b000000#6 then WbState.WB_WAIT_FOR_STALL else .WB_IDLE) ≠ .WB_BUSY
    split
    · decide
    · decide
  | false =>
    cases hf : i.flush_i with
    | true =>
      right
      show (s.bus.next i.stall_i i.flush_i i.req (s.answer i)).wishbone_state ≠ .WB_BUSY
      rw [WbBus.next_busy_flush hb ha hf]
      exact fun hidle => nomatch hidle
    | false => exact Or.inl (WbBus.next_busy_stay hb ha hf)

theorem accesses_congr {t : Sys} (h : t.bus = s.bus) : t.accesses = s.accesses := by
  unfold Sys.accesses Sys.selected
  rw [h]

theorem ready_of_free (ht : s.port.txd_start = false) (hb : s.port.write_busy = false) :
    (s.step i).port.txd.TxD_ready = true := by
  have hstate : s.port.txd.TxD_state = 0b0000#4 := by
    unfold Uart.write_busy Transmitter.TxD_busy Transmitter.TxD_ready at hb
    rw [ht] at hb
    simpa using hb
  unfold Sys.step Uart.next Transmitter.next Transmitter.TxD_ready
  simp only [hstate, ht]
  rfl

theorem fifo_next (hx : i.line.rxd = none) :
    (s.step i).port.fifo = if s.port.fifo_rd then s.port.fifo.drop 1 else s.port.fifo := by
  unfold Sys.step Uart.next Uart.accepts
  rw [hx]
  exact List.append_nil _

theorem Phase.next (h : Phase s) (hs : Strobes s.bus) (hc : Clean s i) : Phase (s.step i) := by
  have hs' : Strobes (s.step i).bus := strobes_next hs _ _ _ _
  cases h with
  | quiet hr ht ha =>
    by_cases hacc : s.accesses = true
    · have ha := ha hacc
      obtain ⟨hstay, hgone⟩ := @next_unanswered s i hs hacc ha
      have hclean := hc hacc
      cases hw : s.bus.wishbone_we_o with
      | false =>
        rw [hw, if_neg Bool.false_ne_true] at hclean
        obtain ⟨hx, hclean⟩ := hclean
        obtain ⟨hlen, hf⟩ := hclean ha
        obtain ⟨byte, hfifo⟩ := List.length_eq_one_iff.1 hlen
        obtain ⟨hack', hrd', hst', hdat'⟩ := @next_read s i hacc hw
        have hbus := hstay hf
        refine .reading ((accesses_congr hbus).trans hacc) ?_ hack' hrd' hst' ⟨byte, ?_, ?_⟩
        · rw [hbus]
          exact hw
        · rw [fifo_next hx, hr]
          exact hfifo
        · rw [hdat']
          unfold Uart.fifo_dout
          rw [hfifo]
          rfl
      | true =>
        rw [hw, if_pos rfl] at hclean
        obtain ⟨hack', hrd', hst', hdat'⟩ := @next_write s i hacc hw
        cases hbusy : s.port.write_busy with
        | true =>
          rw [hbusy] at hack' hst'
          exact .quiet hrd' hst' fun _ => hack'
        | false =>
          rw [hbusy] at hack' hst'
          have hbus := hstay (hclean ha hbusy)
          refine .writing ((accesses_congr hbus).trans hacc) ?_ hack' hrd' hst' ?_
            (ready_of_free ht hbusy)
          · rw [hbus]
            exact hw
          · rw [hbus]
            exact hdat' hbusy
    · have hacc : s.accesses = false := Bool.not_eq_true _ ▸ hacc
      obtain ⟨hrd', hst'⟩ := @next_other s i hacc
      refine .quiet hrd' hst' fun hacc' => ?_
      by_cases hb : s.bus.wishbone_state = .WB_BUSY
      · rcases next_bus (i := i) hb with hbus | hgone
        · rw [accesses_congr hbus, hacc] at hacc'
          cases hacc'
        · exact absurd (busy_of_accesses hs' hacc') hgone
      · exact next_idle hs hb
  | reading hacc hw ha hr ht hf =>
    obtain ⟨byte, hfifo, -⟩ := hf
    have hclean := hc hacc
    rw [hw, if_neg Bool.false_ne_true] at hclean
    obtain ⟨-, hrd', hst', -⟩ := @next_read s i hacc hw
    refine .draining (next_answered hs hacc ha) hrd' hst' ?_
    rw [fifo_next hclean.1, hr, hfifo]
    rfl
  | writing hacc hw ha hr ht hd hx =>
    obtain ⟨-, hrd', hst', -⟩ := @next_write s i hacc hw
    have hbusy : s.port.write_busy = true := by
      unfold Uart.write_busy Transmitter.TxD_busy
      rw [ht, Bool.or_true]
    rw [hbusy] at hst'
    refine .quiet hrd' hst' fun hacc' => ?_
    exact absurd (busy_of_accesses hs' hacc') (next_answered hs hacc ha)
  | draining hb hr ht hf =>
    obtain ⟨hrd', hst'⟩ := @next_other s i (not_accesses hs hb)
    exact .quiet hrd' hst' fun _ => next_idle hs hb

/-! ## The buffer -/

/-- What was received is what has left the buffer and what it holds, but for bytes that came when it
was full. -/
structure Buffered (got out : List Byte) (u : Uart) : Prop where
  order : out ++ u.fifo <+: got
  whole : u.fifo.length < depth → out ++ u.fifo = got

/-- A buffer that gives a byte away holds no other. -/
theorem Phase.fifo_le (h : Phase s) (hr : s.port.fifo_rd = true) : s.port.fifo.length ≤ 1 := by
  cases h with
  | quiet hr' => rw [hr] at hr'; cases hr'
  | reading hacc hw ha hr' ht hf =>
    obtain ⟨byte, hfifo, -⟩ := hf
    rw [hfifo]
    exact Nat.le_refl 1
  | writing hacc hw ha hr' => rw [hr] at hr'; cases hr'
  | draining hb hr' ht hf =>
    rw [hf]
    exact Nat.zero_le 1

theorem Buffered.next {got out : List Byte} (h : Buffered got out s.port) (hp : Phase s) :
    Buffered (got ++ received s i) (out ++ popped s i) (s.step i).port := by
  have hsplit : popped s i ++ (s.step i).port.fifo = s.port.fifo ++ s.port.accepts i.line := by
    show s.port.pops ++ ((if s.port.fifo_rd then s.port.fifo.drop 1 else s.port.fifo) ++ _) = _
    unfold Uart.pops
    split
    · rw [← List.append_assoc, List.take_append_drop]
    · rfl
  by_cases hroom : s.port.fifo.length < depth
  · have hacc : s.port.accepts i.line = received s i := by
      unfold Uart.accepts received
      cases i.line.rxd with
      | none => rfl
      | some byte => exact if_pos hroom
    have hall : out ++ popped s i ++ (s.step i).port.fifo = got ++ received s i := by
      rw [List.append_assoc, hsplit, hacc, ← List.append_assoc, h.whole hroom]
    exact ⟨hall ▸ List.prefix_refl _, fun _ => hall⟩
  · have hacc : s.port.accepts i.line = [] := by
      unfold Uart.accepts
      cases i.line.rxd with
      | none => rfl
      | some byte => exact if_neg hroom
    have hr : s.port.fifo_rd = false := by
      rw [← Bool.not_eq_true]
      intro hr
      have hle := hp.fifo_le hr
      unfold depth at hroom
      omega
    have hout : popped s i = [] := by
      unfold popped Uart.pops
      rw [hr]
      rfl
    rw [hout, hacc, List.append_nil, List.nil_append] at hsplit
    rw [hout, List.append_nil]
    refine ⟨?_, fun hlt => ?_⟩
    · rw [hsplit]
      exact h.order.trans (List.prefix_append _ _)
    · rw [hsplit] at hlt
      exact absurd hlt hroom

end

/-! ## Every run -/

/-- In every clean run the reads of the data register return the bytes in the order in which they
were received, each of them takes the one byte that leaves the buffer, and the writes are the bytes
that the transmitter takes over. -/
theorem uart_once (is : List SysIn) (h : StepsMeet Sys.step Clean Sys.reset is) :
    logFrom Sys.step reads Sys.reset is <+: logFrom Sys.step received Sys.reset is ∧
    logFrom Sys.step reads Sys.reset is = logFrom Sys.step popped Sys.reset is ∧
    logFrom Sys.step writes Sys.reset is = logFrom Sys.step sent Sys.reset is := by
  have h0 : Phase Sys.reset ∧ Strobes Sys.reset.bus :=
    ⟨.quiet rfl rfl fun _ => rfl, rfl, rfl⟩
  have hstep : ∀ s i, Phase s ∧ Strobes s.bus → Clean s i →
      Phase (s.step i) ∧ Strobes (s.step i).bus :=
    fun s i hs hc => ⟨hs.1.next hs.2 hc, strobes_next hs.2 _ _ _ _⟩
  have hreads : logFrom Sys.step reads Sys.reset is = logFrom Sys.step popped Sys.reset is :=
    logs_agree hstep (fun s i hs _ => (hs.1.logs hs.2 i).1) h0 h
  have hwrites : logFrom Sys.step writes Sys.reset is = logFrom Sys.step sent Sys.reset is :=
    logs_agree hstep (fun s i hs _ => (hs.1.logs hs.2 i).2) h0 h
  have hbuf := @logs_related _ _ _ Sys.step Clean received popped
    (fun got out s => Buffered got out s.port ∧ Phase s ∧ Strobes s.bus)
    (fun got out s i hs hc => ⟨hs.1.next hs.2.1, hstep s i hs.2 hc⟩) [] [] _ is
    ⟨⟨List.prefix_refl _, fun _ => rfl⟩, h0⟩ h
  refine ⟨?_, hreads, hwrites⟩
  rw [hreads]
  exact (List.prefix_append _ _).trans hbuf.1.order

namespace SysIn

/-- A cycle in which nothing comes. -/
def quiet : SysIn :=
  ⟨0b000000#6, false, ⟨false, ZeroWord, ZeroWord, false, 0b0000#4⟩, ⟨ZeroWord, false⟩,
    ⟨none, false, 0#8⟩⟩

def receives (byte : Byte) : SysIn := { quiet with line := ⟨some byte, false, 0#8⟩ }

def loads : SysIn := { quiet with req := ⟨true, ZeroWord, 0x1FD003F8#32, false, 0b1111#4⟩ }

end SysIn

/-- Each byte is read before the next one comes. -/
theorem uart_once_alternating : logFrom Sys.step reads Sys.reset [.receives 65#8, .loads, .quiet,
      .quiet, .receives 66#8, .loads, .quiet, .quiet] = [65#8, 66#8] ∧
    logFrom Sys.step reads Sys.reset [.receives 65#8, .loads, .quiet, .quiet, .receives 66#8,
      .loads, .quiet, .quiet] <+: logFrom Sys.step received Sys.reset [.receives 65#8, .loads,
      .quiet, .quiet, .receives 66#8, .loads, .quiet, .quiet] :=
  ⟨by decide +kernel, (uart_once _ (by decide +kernel)).1⟩

/-- With two bytes in the buffer one read takes both. -/
theorem uart_skips : ¬ ∀ is : List SysIn,
    logFrom Sys.step reads Sys.reset is <+: logFrom Sys.step received Sys.reset is ∧
    logFrom Sys.step reads Sys.reset is = logFrom Sys.step popped Sys.reset is ∧
    logFrom Sys.step writes Sys.reset is = logFrom Sys.step sent Sys.reset is := by
  intro h
  have hread := (h [.receives 65#8, .receives 66#8, .loads, .quiet, .quiet, .quiet, .loads,
    .quiet, .quiet]).1
  revert hread
  decide +kernel

end nehcpu.cpu.uart
