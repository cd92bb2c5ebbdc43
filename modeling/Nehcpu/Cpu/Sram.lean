-- The memory controller `sram_top` and its two chips, and the board on which
-- `mem.v` uses them through the data bus master.
import Nehcpu.Cpu.Bus
import Nehcpu.Cpu.MemStage
import Nehcpu.Lib.ByteLanes

namespace nehcpu.cpu

open lanes

/-! ## The controller -/

inductive SramState
  | IDLE | READ | WRITE0 | WRITE1 | READ_BEFORE_WRITE
deriving DecidableEq, Repr

/-- The registers of `sram_top`. -/
structure SramTop where
  state : SramState
  wb_ack_o : Bool
  wb_data_o : Word
  ram_oe : Bool
  ram_we : Bool
  data_to_write : Word
deriving DecidableEq, Repr

/-- The wishbone inputs of `sram_top`. -/
structure WbIn where
  wb_stb_i : Bool
  wb_cyc_i : Bool
  wb_addr_i : Word
  wb_sel_i : BitVec 4
  wb_we_i : Bool
  wb_data_i : Word
deriving DecidableEq, Repr

/-- The words of the two chips. -/
structure Chips where
  baseram : BitVec 20 → Word
  extram : BitVec 20 → Word

def wb_acc (r : WbIn) : Bool := r.wb_cyc_i && r.wb_stb_i
def wb_wr (r : WbIn) : Bool := wb_acc r && r.wb_we_i
def wb_rd (r : WbIn) : Bool := wb_acc r && !r.wb_we_i

/-- The extra chip rather than the base chip. -/
def ram_selector (r : WbIn) : Bool := r.wb_addr_i[22]

/-- `baseram_addr` and `extram_addr` -/
def ram_addr (r : WbIn) : BitVec 20 := r.wb_addr_i.extractLsb' 2 20

def all_select (r : WbIn) : Bool :=
  r.wb_sel_i[3] && r.wb_sel_i[2] && r.wb_sel_i[1] && r.wb_sel_i[0]

/-- The data lines of a chip: the controller drives them while the output enable of the chip
(low means on) is off, and the chip drives them otherwise. -/
def ramData (oe : Bool) (data_to_write : Word) (chip : BitVec 20 → Word) (addr : BitVec 20) :
    Word := if oe then data_to_write else chip addr

def baseram_oe (t : SramTop) (r : WbIn) : Bool := ram_selector r || t.ram_oe
def extram_oe (t : SramTop) (r : WbIn) : Bool := !ram_selector r || t.ram_oe

def baseram_data (t : SramTop) (r : WbIn) (c : Chips) : Word :=
  ramData (baseram_oe t r) t.data_to_write c.baseram (ram_addr r)

def extram_data (t : SramTop) (r : WbIn) (c : Chips) : Word :=
  ramData (extram_oe t r) t.data_to_write c.extram (ram_addr r)

def baseram_ce (r : WbIn) : Bool := !(wb_acc r && !ram_selector r)
def extram_ce (r : WbIn) : Bool := !(wb_acc r && ram_selector r)

def baseram_we (t : SramTop) (r : WbIn) : Bool := !(wb_wr r && !ram_selector r && !t.ram_we)
def extram_we (t : SramTop) (r : WbIn) : Bool := !(wb_wr r && ram_selector r && !t.ram_we)

/-- `ram_selector ? extram_data : baseram_data` -/
def ram_data (t : SramTop) (r : WbIn) (c : Chips) : Word :=
  if ram_selector r then extram_data t r c else baseram_data t r c

/-- The registers after a clock edge. -/
def SramTop.next (t : SramTop) (r : WbIn) (c : Chips) : SramTop :=
  if wb_acc r = false then
    ⟨.IDLE, false, ZeroWord, true, true, t.data_to_write⟩
  else
    match t.state with
    | .IDLE =>
      if wb_rd r then { t with wb_ack_o := false, ram_oe := false, state := .READ }
      else if wb_wr r && all_select r then
        { t with wb_ack_o := false, data_to_write := r.wb_data_i, state := .WRITE0 }
      else if wb_wr r && !all_select r then
        { t with wb_ack_o := false, ram_oe := false, state := .READ_BEFORE_WRITE }
      else { t with wb_ack_o := false }
    | .READ =>
      { t with wb_data_o := merge r.wb_sel_i (ram_data t r c) ZeroWord, wb_ack_o := true,
               ram_oe := true, state := .IDLE }
    | .WRITE0 => { t with ram_we := false, state := .WRITE1 }
    | .WRITE1 => { t with ram_we := true, wb_ack_o := true, state := .IDLE }
    | .READ_BEFORE_WRITE =>
      { t with data_to_write := merge r.wb_sel_i r.wb_data_i (ram_data t r c), ram_oe := true,
               state := .WRITE0 }

/-- A chip takes the word on its data lines while it is enabled for writing. -/
def Chips.next (c : Chips) (t : SramTop) (r : WbIn) : Chips where
  baseram :=
    if baseram_ce r = false ∧ baseram_we t r = false then
      setWord c.baseram (ram_addr r) (baseram_data t r c)
    else c.baseram
  extram :=
    if extram_ce r = false ∧ extram_we t r = false then
      setWord c.extram (ram_addr r) (extram_data t r c)
    else c.extram

/-! ## The board -/

/-- The data bus master, the controller and the chips. -/
structure Board where
  bus : WbBus
  sram : SramTop
  chips : Chips

/-- What the master puts on the bus. -/
def WbBus.out (b : WbBus) : WbIn where
  wb_stb_i := b.wishbone_stb_o
  wb_cyc_i := b.wishbone_cyc_o
  wb_addr_i := b.wishbone_addr_o
  wb_sel_i := b.wishbone_sel_o
  wb_we_i := b.wishbone_we_o
  wb_data_i := b.wishbone_data_o

def Board.answer (b : Board) : WbAnswer := ⟨b.sram.wb_data_o, b.sram.wb_ack_o⟩

/-- One clock cycle with the request `r` of `mem.v` and the stall vector `stall`. -/
def Board.cycle (b : Board) (r : CpuReq) (stall : BitVec 6) : Board where
  bus := b.bus.next stall false r b.answer
  sram := b.sram.next b.bus.out b.chips
  chips := b.chips.next b.sram b.bus.out

/-- What `mem.v` asks for an instruction without an exception, at a physical address. -/
def memReq (held : Word) (m : ExMem) (cpu_addr_i : Word) : CpuReq where
  cpu_ce_i := mem_ce_o m
  cpu_data_i := mem_data_o held m
  cpu_addr_i := cpu_addr_i
  cpu_we_i := mem_we m
  cpu_sel_i := mem_sel_o m

/-- What `mem.v` asks while it holds a bubble. -/
def quietReq : CpuReq := ⟨false, ZeroWord, ZeroWord, false, 0b1111#4⟩

/-- The instruction stays in `mem` while the master asks for a stall. In the cycle in which
it moves on, its value for the register file is ready; `leave` is the stall vector of that
cycle. With no fuel left the run is given up. -/
def Board.exec (held : Word) (m : ExMem) (cpu_addr_i : Word) (leave : BitVec 6) :
    Nat → Board → Option (Word × Board)
  | 0, _ => none
  | fuel + 1, b =>
    if b.bus.stallreq false (mem_ce_o m) b.answer.wishbone_ack_i then
      Board.exec held m cpu_addr_i leave fuel
        (b.cycle (memReq held m cpu_addr_i) 0b011111#6)
    else
      some (mem_wdata_o m (b.bus.cpu_data_o ZeroWord false (mem_ce_o m) b.answer),
        b.cycle (memReq held m cpu_addr_i) leave)

/-- A load or a store, the latch and the index that it finds, and the stall vectors from the
cycle in which it leaves `mem` to the next one that comes: the pipeline moves on in one of
these cycles. -/
structure Turn where
  inst : ExMem
  held : Word
  held_index : BitVec 4
  waits : List (BitVec 6)
  rest : List (BitVec 6)

/-- The physical address of the access. -/
def Turn.addr (tlb : Tlb) (t : Turn) : Word :=
  (vir2phy t.held_index tlb (mem_addr_o t.inst)).physical_addr

/-- The stall vectors, the first for the cycle in which the instruction leaves. -/
def Turn.stalls (t : Turn) : List (BitVec 6) := t.waits ++ 0b000000#6 :: t.rest

def Board.quietCycles (b : Board) (stalls : List (BitVec 6)) : Board :=
  stalls.foldl (fun b st => b.cycle quietReq st) b

/-- One instruction, and the cycles up to the next. -/
def Board.turn (fuel : Nat) (tlb : Tlb) (b : Board) (t : Turn) : Option (Word × Board) :=
  match t.stalls with
  | [] => none
  | leave :: stalls =>
    (Board.exec t.held t.inst (t.addr tlb) leave fuel b).map fun (w, b') => (w, b'.quietCycles stalls)

/-- The values that the loads of a program bring, and the board after it. -/
def Board.run (fuel : Nat) (tlb : Tlb) : Board → List Turn → Option (List Word × Board)
  | b, [] => some ([], b)
  | b, t :: ts =>
    match b.turn fuel tlb t with
    | none => none
    | some (w, b') =>
      match Board.run fuel tlb b' ts with
      | none => none
      | some (ws, b'') => some (if is_load t.inst.mem_aluop then w :: ws else ws, b'')

end nehcpu.cpu
