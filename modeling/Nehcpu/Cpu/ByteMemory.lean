-- Loads and stores against the memory controller are loads and stores of a memory
-- of bytes, the lowest byte first. Each access is followed through the bus cycles
-- that it takes, then a program of accesses by induction.
import Nehcpu.Cpu.Sram

namespace nehcpu.cpu

open lanes

/-! ## The chips as one memory -/

/-- The two chips side by side: the highest bit of the index picks the chip. -/
def Chips.words (c : Chips) : BitVec 21 → Word := fun i =>
  if i[20] then c.extram (i.extractLsb' 0 20) else c.baseram (i.extractLsb' 0 20)

/-- The memory of bytes that the chips stand for. -/
def Chips.bytes (c : Chips) : BitVec 23 → BitVec 8 := bytesOf c.words

/-- The word that a request is about. -/
def wordIndex (r : WbIn) : BitVec 21 := r.wb_addr_i.extractLsb' 2 21

theorem wordIndex_selector (r : WbIn) : (wordIndex r)[20] = ram_selector r := by
  unfold wordIndex ram_selector
  rw [BitVec.getElem_extractLsb']
  exact BitVec.getLsbD_eq_getElem (by decide)

theorem wordIndex_addr (r : WbIn) : (wordIndex r).extractLsb' 0 20 = ram_addr r := by
  unfold wordIndex ram_addr
  apply BitVec.eq_of_getLsbD_eq
  intro k hk
  have hk' : k < 21 := by omega
  simp [hk, hk']

/-- Two indices are equal when they pick the same chip and the same word of it. -/
theorem index_ext {i j : BitVec 21} (hs : i[20] = j[20])
    (ha : i.extractLsb' 0 20 = j.extractLsb' 0 20) : i = j := by
  apply BitVec.eq_of_getLsbD_eq
  intro k hk
  by_cases h : k = 20
  · subst h
    rw [BitVec.getLsbD_eq_getElem (by decide), BitVec.getLsbD_eq_getElem (by decide)]
    exact hs
  · have hb := congrArg (fun v => v.getLsbD k) ha
    have hk' : k < 20 := by omega
    simpa [BitVec.getLsbD_extractLsb', hk'] using hb

/-- With the output enable on, the data lines show the word of the request. -/
theorem ram_data_read (t : SramTop) (r : WbIn) (c : Chips) (ho : t.ram_oe = false) :
    ram_data t r c = c.words (wordIndex r) := by
  unfold ram_data extram_data baseram_data ramData extram_oe baseram_oe Chips.words
  rw [wordIndex_selector, wordIndex_addr, ho]
  cases ram_selector r
  · simp
  · simp

/-- With the write enable off no chip changes. -/
theorem chips_next_idle (t : SramTop) (r : WbIn) (c : Chips)
    (h : t.ram_we = true ∨ wb_acc r = false) : c.next t r = c := by
  unfold Chips.next baseram_ce extram_ce baseram_we extram_we wb_wr
  rcases h with h | h
  · simp [h]
  · simp [h]

/-- With the write enable on, the word of the request becomes the one on the data lines. -/
theorem chips_next_write (t : SramTop) (r : WbIn) (c : Chips) (ho : t.ram_oe = true)
    (hw : t.ram_we = false) (ha : wb_acc r = true) (hr : r.wb_we_i = true) :
    (c.next t r).words = setWord c.words (wordIndex r) t.data_to_write := by
  funext j
  have hj : j = wordIndex r ↔ j[20] = ram_selector r ∧ j.extractLsb' 0 20 = ram_addr r := by
    rw [← wordIndex_selector, ← wordIndex_addr]
    constructor
    · rintro rfl
      exact ⟨rfl, rfl⟩
    · rintro ⟨hs, hw⟩
      exact index_ext hs hw
  unfold Chips.next Chips.words setWord baseram_ce extram_ce baseram_we extram_we wb_wr
    extram_data baseram_data ramData extram_oe baseram_oe
  simp only [ho, hw, ha, hr, hj]
  cases ram_selector r <;> cases j[20] <;> simp

/-! ## An access, cycle by cycle -/

/-- The board with the request `r` on the bus. -/
def busyBoard (r : CpuReq) (t : SramTop) (c : Chips) : Board where
  bus := ⟨.WB_BUSY, phy_wb_addr r.cpu_addr_i, r.cpu_data_i, r.cpu_we_i, r.cpu_sel_i, true, true,
    ZeroWord⟩
  sram := t
  chips := c

/-- The request `r` as the controller sees it. -/
def busOf (r : CpuReq) : WbIn :=
  ⟨true, true, phy_wb_addr r.cpu_addr_i, r.cpu_sel_i, r.cpu_we_i, r.cpu_data_i⟩

/-- The controller while nothing is asked of it. -/
def SramTop.free (data_to_write : Word) : SramTop :=
  ⟨.IDLE, false, ZeroWord, true, true, data_to_write⟩

/-- The master takes the next request. The controller may be in any state. -/
structure Board.Idle (b : Board) : Prop where
  state : b.bus.wishbone_state = .WB_IDLE
  cyc : b.bus.wishbone_cyc_o = false

/-- The instruction has left in a cycle with the stall vector `leave`. -/
structure Board.Left (b : Board) (leave : BitVec 6) : Prop where
  state : b.bus.wishbone_state = if leave ≠ 0b000000#6 then .WB_WAIT_FOR_STALL else .WB_IDLE
  cyc : b.bus.wishbone_cyc_o = false

variable {held : Word} {m : ExMem} {a : Word} {leave : BitVec 6}

/-- In the first cycle the master takes the request and the controller comes to rest. -/
theorem exec_start (f : Nat) {b : Board} (hb : b.Idle) (hc : mem_ce_o m = true) :
    Board.exec held m a leave (f + 1) b =
      Board.exec held m a leave f
        (busyBoard (memReq held m a) (.free b.sram.data_to_write) b.chips) := by
  have hacc : wb_acc b.bus.out = false := by
    unfold wb_acc WbBus.out
    simp only [hb.cyc, Bool.false_and]
  have hs : b.bus.stallreq false (mem_ce_o m) b.answer.wishbone_ack_i = true := by
    simp only [WbBus.stallreq, hb.state, hc, Bool.not_false, Bool.and_self]
  rw [Board.exec, if_pos hs]
  congr 1
  unfold Board.cycle
  rw [WbBus.next_idle_request hb.state hc rfl, chips_next_idle _ _ _ (Or.inr hacc)]
  unfold SramTop.next
  rw [if_pos hacc]
  rfl

/-- While the controller has not answered, the request stays on the bus. -/
theorem exec_stay (f : Nat) (t : SramTop) (c : Chips) (ha : t.wb_ack_o = false) :
    Board.exec held m a leave (f + 1) (busyBoard (memReq held m a) t c) =
      Board.exec held m a leave f
        (busyBoard (memReq held m a) (t.next (busOf (memReq held m a)) c)
          (c.next t (busOf (memReq held m a)))) := by
  have hs : (busyBoard (memReq held m a) t c).bus.stallreq false (mem_ce_o m)
      (busyBoard (memReq held m a) t c).answer.wishbone_ack_i = true := by
    simp only [WbBus.stallreq, busyBoard, Board.answer, ha, Bool.not_false]
  rw [Board.exec, if_pos hs]
  congr 1
  unfold Board.cycle
  rw [WbBus.next_busy_stay rfl ha rfl]
  rfl

/-- With the answer the instruction leaves, and the bus is released. -/
theorem exec_done (f : Nat) (t : SramTop) (c : Chips) (ha : t.wb_ack_o = true)
    (hw : t.ram_we = true) :
    ∃ b', Board.exec held m a leave (f + 1) (busyBoard (memReq held m a) t c) =
        some (mem_wdata_o m (if mem_we m then ZeroWord else t.wb_data_o), b') ∧
      b'.Left leave ∧ b'.chips = c := by
  have hs : (busyBoard (memReq held m a) t c).bus.stallreq false (mem_ce_o m)
      (busyBoard (memReq held m a) t c).answer.wishbone_ack_i = false := by
    simp only [WbBus.stallreq, busyBoard, Board.answer, ha, Bool.not_true]
  refine ⟨(busyBoard (memReq held m a) t c).cycle (memReq held m a) leave, ?_, ⟨?_, ?_⟩, ?_⟩
  · rw [Board.exec, if_neg (by rw [hs]; decide)]
    unfold WbBus.cpu_data_o
    simp only [busyBoard, Board.answer, memReq, ha, ↓reduceIte]
  · unfold Board.cycle
    rw [WbBus.next_busy_ack rfl ha]
  · unfold Board.cycle
    rw [WbBus.next_busy_ack rfl ha]
    rfl
  · exact chips_next_idle _ _ _ (Or.inl hw)

/-- The word of the memory that the access is about. -/
def accessIndex (a : Word) : BitVec 21 := (phy_wb_addr a).extractLsb' 2 21

theorem all_select_iff {r : CpuReq} : all_select (busOf r) = true ↔ r.cpu_sel_i = 0b1111#4 := by
  have h : ∀ sel : BitVec 4, (sel[3] && sel[2] && sel[1] && sel[0]) = true ↔ sel = 0b1111#4 := by
    decide
  exact h _

theorem wb_acc_busOf (r : CpuReq) : wb_acc (busOf r) = true := rfl

/-- A load reads the selected bytes of its word, and the rest as zeros. -/
theorem exec_load (f : Nat) {b : Board} (hb : b.Idle) (hm : is_load m.mem_aluop = true) :
    ∃ b', Board.exec held m a leave (f + 6) b =
        some (mem_wdata_o m (merge (mem_sel_o m) (b.chips.words (accessIndex a)) ZeroWord), b') ∧
      b'.Left leave ∧ b'.chips = b.chips := by
  have hc : mem_ce_o m = true := by
    unfold mem_ce_o
    rw [hm]
    rfl
  have hw : mem_we m = false := by
    unfold mem_we
    unfold is_load at hm
    unfold is_store
    cases hop : m.mem_aluop <;> simp [hop] at hm ⊢
  obtain ⟨d, hd⟩ : ∃ d, d = b.sram.data_to_write := ⟨_, rfl⟩
  obtain ⟨r, hr⟩ : ∃ r, r = memReq held m a := ⟨_, rfl⟩
  have hwe : (busOf r).wb_we_i = false := by
    rw [hr]
    exact hw
  have hrd : wb_rd (busOf r) = true := by
    unfold wb_rd
    rw [wb_acc_busOf, hwe]
    rfl
  -- the controller turns the output enable on, then latches the word and answers
  have h1 : (SramTop.free d).next (busOf r) b.chips = ⟨.READ, false, ZeroWord, false, true, d⟩ := by
    unfold SramTop.next
    simp only [wb_acc_busOf, SramTop.free, hrd, Bool.true_eq_false, ↓reduceIte]
  have h2 : (⟨.READ, false, ZeroWord, false, true, d⟩ : SramTop).next (busOf r) b.chips =
      ⟨.IDLE, true, merge (mem_sel_o m) (b.chips.words (accessIndex a)) ZeroWord, true, true, d⟩ := by
    unfold SramTop.next
    simp only [wb_acc_busOf, Bool.true_eq_false, ↓reduceIte]
    rw [ram_data_read _ _ _ rfl, hr]
    rfl
  rw [exec_start (f + 5) hb hc, exec_stay (f + 4) _ _ rfl, ← hr, ← hd, h1,
    chips_next_idle _ _ _ (Or.inl rfl), hr, exec_stay (f + 3) _ _ rfl, ← hr, h2,
    chips_next_idle _ _ _ (Or.inl rfl), hr]
  obtain ⟨b', he, hl, hch⟩ := @exec_done held m a leave (f + 2)
    ⟨.IDLE, true, merge (mem_sel_o m) (b.chips.words (accessIndex a)) ZeroWord, true, true, d⟩
    b.chips rfl rfl
  refine ⟨b', ?_, hl, hch⟩
  rw [he, hw]
  rfl

theorem mem_ce_o_of_store (hm : is_store m.mem_aluop = true) : mem_ce_o m = true := by
  unfold mem_ce_o
  rw [hm]
  exact Bool.or_true _

/-- From `WRITE0` the controller writes the word it holds, and answers. -/
theorem exec_write (f : Nat) (w : Word) (c : Chips) (hm : is_store m.mem_aluop = true) :
    ∃ v b', Board.exec held m a leave (f + 3)
        (busyBoard (memReq held m a) ⟨.WRITE0, false, ZeroWord, true, true, w⟩ c) =
          some (v, b') ∧
      b'.Left leave ∧ b'.chips.words = setWord c.words (accessIndex a) w := by
  obtain ⟨r, hr⟩ : ∃ r, r = memReq held m a := ⟨_, rfl⟩
  have hwe : (busOf r).wb_we_i = true := by
    rw [hr]
    exact hm
  have h1 : (⟨.WRITE0, false, ZeroWord, true, true, w⟩ : SramTop).next (busOf r) c =
      ⟨.WRITE1, false, ZeroWord, true, false, w⟩ := rfl
  have h2 (c' : Chips) : (⟨.WRITE1, false, ZeroWord, true, false, w⟩ : SramTop).next (busOf r) c' =
      ⟨.IDLE, true, ZeroWord, true, true, w⟩ := rfl
  have hch := chips_next_write ⟨.WRITE1, false, ZeroWord, true, false, w⟩ (busOf r) c rfl rfl rfl hwe
  rw [exec_stay (f + 2) _ _ rfl, ← hr, h1, chips_next_idle _ _ _ (Or.inl rfl), hr,
    exec_stay (f + 1) _ _ rfl, ← hr, h2, hr]
  obtain ⟨b', he, hl, hb⟩ := @exec_done held m a leave f
    ⟨.IDLE, true, ZeroWord, true, true, w⟩
    (c.next ⟨.WRITE1, false, ZeroWord, true, false, w⟩ (busOf r)) rfl rfl
  rw [← hr] at he ⊢
  refine ⟨_, b', he, hl, ?_⟩
  rw [hb, hch, hr]
  rfl

/-- A store writes the selected bytes into its word and leaves the others. -/
theorem exec_store (f : Nat) {b : Board} (hb : b.Idle) (hm : is_store m.mem_aluop = true) :
    ∃ v b', Board.exec held m a leave (f + 6) b = some (v, b') ∧
      b'.Left leave ∧
      b'.chips.words = setWord b.chips.words (accessIndex a)
        (merge (mem_sel_o m) (mem_data_o held m) (b.chips.words (accessIndex a))) := by
  obtain ⟨d, hd⟩ : ∃ d, d = b.sram.data_to_write := ⟨_, rfl⟩
  obtain ⟨r, hr⟩ : ∃ r, r = memReq held m a := ⟨_, rfl⟩
  have hwe : (busOf r).wb_we_i = true := by
    rw [hr]
    exact hm
  have hrd : wb_rd (busOf r) = false := by
    unfold wb_rd
    rw [wb_acc_busOf, hwe]
    rfl
  have hwr : wb_wr (busOf r) = true := by
    unfold wb_wr
    rw [wb_acc_busOf, hwe]
    rfl
  rw [exec_start (f + 5) hb (mem_ce_o_of_store hm), exec_stay (f + 4) _ _ rfl, ← hr, ← hd,
    chips_next_idle _ _ _ (Or.inl rfl)]
  by_cases hall : all_select (busOf r) = true
  · -- all four bytes: the word goes out as it is
    have hsel : mem_sel_o m = 0b1111#4 := by
      rw [hr] at hall
      exact all_select_iff.1 hall
    have h1 : (SramTop.free d).next (busOf r) b.chips =
        ⟨.WRITE0, false, ZeroWord, true, true, mem_data_o held m⟩ := by
      unfold SramTop.next
      simp only [wb_acc_busOf, SramTop.free, hrd, hwr, hall, Bool.true_eq_false, ↓reduceIte,
        Bool.false_eq_true, Bool.and_self]
      rw [hr]
      rfl
    rw [h1, hr, hsel, merge_all]
    exact exec_write (f + 1) _ _ hm
  · -- some of them: the word is read first
    rw [Bool.not_eq_true] at hall
    have h1 : (SramTop.free d).next (busOf r) b.chips =
        ⟨.READ_BEFORE_WRITE, false, ZeroWord, false, true, d⟩ := by
      unfold SramTop.next
      simp only [wb_acc_busOf, SramTop.free, hrd, hwr, hall, Bool.true_eq_false, ↓reduceIte,
        Bool.false_eq_true, Bool.and_false, Bool.not_false, Bool.and_self]
    have h2 : (⟨.READ_BEFORE_WRITE, false, ZeroWord, false, true, d⟩ : SramTop).next (busOf r)
        b.chips = ⟨.WRITE0, false, ZeroWord, true, true,
          merge (mem_sel_o m) (mem_data_o held m) (b.chips.words (accessIndex a))⟩ := by
      unfold SramTop.next
      simp only [wb_acc_busOf, Bool.true_eq_false, ↓reduceIte]
      rw [ram_data_read _ _ _ rfl, hr]
      rfl
    rw [h1, hr, exec_stay (f + 3) _ _ rfl, ← hr, h2, chips_next_idle _ _ _ (Or.inl rfl), hr]
    exact exec_write f _ _ hm

/-! ## Between two accesses -/

/-- Without a cycle on the bus the chips keep their words. -/
theorem cycle_chips {b : Board} {r : CpuReq} {stall : BitVec 6}
    (hc : b.bus.wishbone_cyc_o = false) : (b.cycle r stall).chips = b.chips := by
  refine chips_next_idle _ _ _ (Or.inr ?_)
  unfold wb_acc WbBus.out
  simp only [hc, Bool.false_and]

theorem idle_cycle {b : Board} (hb : b.Idle) (stall : BitVec 6) : (b.cycle quietReq stall).Idle := by
  have h : (b.cycle quietReq stall).bus = b.bus := WbBus.next_idle_quiet hb.state (Or.inl rfl)
  exact ⟨by rw [h, hb.state], by rw [h, hb.cyc]⟩

theorem left_cycle {b : Board} {leave : BitVec 6} (hb : b.Left leave) (hl : leave ≠ 0b000000#6)
    (stall : BitVec 6) : (b.cycle quietReq stall).Left stall := by
  have hs : b.bus.wishbone_state = .WB_WAIT_FOR_STALL := by rw [hb.state, if_pos hl]
  by_cases h : stall = 0b000000#6
  · have hb' : (b.cycle quietReq stall).bus = { b.bus with wishbone_state := .WB_IDLE } :=
      WbBus.next_wait_run hs h
    exact ⟨by rw [hb', if_neg (fun hn => hn h)], by rw [hb']; exact hb.cyc⟩
  · have hb' : (b.cycle quietReq stall).bus = b.bus := WbBus.next_wait_stay hs h
    exact ⟨by rw [hb', if_pos h, hs], by rw [hb', hb.cyc]⟩

theorem Board.Left.idle {b : Board} (hb : b.Left 0b000000#6) : b.Idle :=
  ⟨hb.state, hb.cyc⟩

theorem quietCycles_idle (stalls : List (BitVec 6)) {b : Board} (hb : b.Idle) :
    (b.quietCycles stalls).Idle ∧ (b.quietCycles stalls).chips = b.chips := by
  induction stalls generalizing b with
  | nil => exact ⟨hb, rfl⟩
  | cons st sts ih =>
    obtain ⟨hi, hc⟩ := ih (idle_cycle hb st)
    exact ⟨hi, hc.trans (cycle_chips hb.cyc)⟩

/-- A cycle without a stall comes, and from it on the master is free. -/
theorem quietCycles_left (stalls : List (BitVec 6)) {b : Board} {leave : BitVec 6}
    (hb : b.Left leave) (hz : 0b000000#6 ∈ leave :: stalls) :
    (b.quietCycles stalls).Idle ∧ (b.quietCycles stalls).chips = b.chips := by
  induction stalls generalizing b leave with
  | nil =>
    rw [List.mem_singleton] at hz
    subst hz
    exact ⟨hb.idle, rfl⟩
  | cons st sts ih =>
    by_cases hl : leave = 0b000000#6
    · subst hl
      exact quietCycles_idle (st :: sts) hb.idle
    · have hz' : 0b000000#6 ∈ st :: sts := (List.mem_cons.1 hz).resolve_left fun h => hl h.symm
      obtain ⟨hi, hc⟩ := ih (left_cycle hb hl st) hz'
      exact ⟨hi, hc.trans (cycle_chips hb.cyc)⟩

/-! ## The memory of bytes -/

/-- A load or a store of a memory of bytes: the operation, the address and the stored value. -/
structure ByteAccess where
  op : AluOp
  addr : BitVec 23
  value : Word

namespace ByteAccess

/-- What a load returns. -/
def load (mem : BitVec 23 → BitVec 8) (x : ByteAccess) : Word :=
  match x.op with
  | .LB => (mem x.addr).signExtend 32
  | .LBU => (mem x.addr).zeroExtend 32
  | .LHU => (loadHalf mem x.addr).zeroExtend 32
  | _ => loadWord mem x.addr

/-- The memory after it, which only a store changes. -/
def store (mem : BitVec 23 → BitVec 8) (x : ByteAccess) : BitVec 23 → BitVec 8 :=
  match x.op with
  | .SB => storeByte mem x.addr (x.value.extractLsb' 0 8)
  | .SW => storeWord mem x.addr x.value
  | _ => mem

/-- The memory after a program. -/
def storeAll (mem : BitVec 23 → BitVec 8) (xs : List ByteAccess) : BitVec 23 → BitVec 8 :=
  xs.foldl store mem

/-- What the loads of a program return, each from the memory that the stores before it left. -/
def loadAll : (BitVec 23 → BitVec 8) → List ByteAccess → List Word
  | _, [] => []
  | mem, x :: xs => if is_load x.op then x.load mem :: loadAll (x.store mem) xs
      else loadAll (x.store mem) xs

/-- Words at multiples of four, halfwords at even addresses. -/
def Aligned (x : ByteAccess) : Prop :=
  match x.op with
  | .LW | .SW => x.addr.extractLsb' 0 2 = 0#2
  | .LHU => x.addr.extractLsb' 0 2 = 0#2 ∨ x.addr.extractLsb' 0 2 = 2#2
  | _ => True

/-- A halfword that is loaded from the upper half of a word is zero. -/
def UpperHalfZero (mem : BitVec 23 → BitVec 8) (x : ByteAccess) : Prop :=
  x.op = .LHU → x.addr.extractLsb' 0 2 = 2#2 → loadHalf mem x.addr = 0#16

/-- Every such halfword of a program is zero in the memory that the load finds. -/
def UpperHalvesZero : (BitVec 23 → BitVec 8) → List ByteAccess → Prop
  | _, [] => True
  | mem, x :: xs => x.UpperHalfZero mem ∧ UpperHalvesZero (x.store mem) xs

instance (x : ByteAccess) : Decidable x.Aligned :=
  decidable_of_iff
    ((x.op = .LW ∨ x.op = .SW → x.addr.extractLsb' 0 2 = 0#2) ∧
      (x.op = .LHU → x.addr.extractLsb' 0 2 = 0#2 ∨ x.addr.extractLsb' 0 2 = 2#2)) <| by
    unfold Aligned
    cases x.op <;> simp

instance (mem : BitVec 23 → BitVec 8) (x : ByteAccess) : Decidable (x.UpperHalfZero mem) := by
  unfold UpperHalfZero
  infer_instance

instance UpperHalvesZero.decidable :
    ∀ (mem : BitVec 23 → BitVec 8) (xs : List ByteAccess), Decidable (UpperHalvesZero mem xs)
  | _, [] => isTrue trivial
  | mem, x :: xs => @instDecidableAnd _ _ _ (UpperHalvesZero.decidable (x.store mem) xs)

end ByteAccess

/-! ## One access -/

/-- The address of a byte within the chips. -/
def chipAddr (a : Word) : BitVec 23 := a.extractLsb' 0 23

/-- The access that an instruction makes at a physical address. -/
def accessOf (m : ExMem) (a : Word) : ByteAccess := ⟨m.mem_aluop, chipAddr a, m.mem_reg2⟩

theorem chipAddr_offset (a : Word) : (chipAddr a).extractLsb' 0 2 = byteOffset a := by
  unfold chipAddr byteOffset
  exact BitVec.extractLsb'_extractLsb'_of_le (by decide)

/-- In the window of the chips the bus address is the physical address. -/
theorem accessIndex_of_ram {a : Word} (h : a.extractLsb' 23 9 = 0#9) :
    accessIndex a = (chipAddr a).extractLsb' 2 21 := by
  unfold accessIndex chipAddr phy_wb_addr
  rw [if_pos h]
  apply BitVec.eq_of_getLsbD_eq
  intro k hk
  simp

/-- Translation keeps the offset within the word. -/
theorem vir2phy_offset (held_index : BitVec 4) (tlb : Tlb) (va : Word) :
    byteOffset (vir2phy held_index tlb va).physical_addr = byteOffset va := by
  unfold vir2phy byteOffset
  simp only
  split
  · rw [BitVec.extractLsb'_append_eq_of_add_le (by decide)]
    exact BitVec.extractLsb'_extractLsb'_of_le (by decide)
  · rw [BitVec.extractLsb'_append_eq_of_add_le (by decide)]
    exact BitVec.extractLsb'_extractLsb'_of_le (by decide)

theorem byteSel_iff (off : BitVec 2) (l : BitVec 2) :
    (byteSel off).getLsbD l.toNat = true ↔ l = off := by
  revert off l
  decide

theorem byteLane_eq (w : Word) (off : BitVec 2) : byteLane w off = lane w off := by
  rcases offset_cases off with rfl | rfl | rfl | rfl
  · rfl
  · rfl
  · rfl
  · rfl

/-- The byte that a load picks is the one that it selects. -/
theorem byteLane_merge (w : Word) (off : BitVec 2) :
    byteLane (merge (byteSel off) w ZeroWord) off = lane w off := by
  rw [byteLane_eq, lane_merge, if_pos ((byteSel_iff off off).2 rfl)]

theorem lower_half (w : Word) : w.extractLsb' 0 16 = lane w 1#2 ++ lane w 0#2 := by
  have h : w.extractLsb' 8 8 ++ w.extractLsb' 0 8 = w.extractLsb' 0 16 :=
    BitVec.extractLsb'_append_extractLsb'_eq_extractLsb' rfl
  exact h.symm

theorem upper_half (w : Word) : w.extractLsb' 16 16 = lane w 3#2 ++ lane w 2#2 := by
  have h : w.extractLsb' 24 8 ++ w.extractLsb' 16 8 = w.extractLsb' 16 16 :=
    BitVec.extractLsb'_append_extractLsb'_eq_extractLsb' rfl
  exact h.symm

/-- What `mem_data_i[31: 15]` gives for a word whose lower half is not selected: the
upper half shifted up by one bit. -/
theorem slipped_half (v : Word) (h : BitVec 16) (hlo : v.extractLsb' 0 16 = 0#16)
    (hhi : v.extractLsb' 16 16 = h) :
    (0#16 ++ v.extractLsb' 15 17).truncate 32 = h.zeroExtend 32 ↔ h = 0#16 := by
  have hl := congrArg BitVec.toNat hlo
  have hh := congrArg BitVec.toNat hhi
  rw [BitVec.extractLsb'_toNat, Nat.shiftRight_eq_div_pow] at hl hh
  have hv := v.isLt
  have hlt := h.isLt
  have hd : ((0#16 ++ v.extractLsb' 15 17).truncate 32).toNat = 2 * h.toNat := by
    have ha : (0#16 ++ v.extractLsb' 15 17).toNat = (v.extractLsb' 15 17).toNat := by
      refine (BitVec.toNat_append _ _).trans ?_
      rw [BitVec.toNat_ofNat, Nat.zero_mod, Nat.zero_shiftLeft, Nat.zero_or]
    rw [BitVec.truncate_eq_setWidth, BitVec.toNat_setWidth, ha, BitVec.extractLsb'_toNat,
      Nat.shiftRight_eq_div_pow]
    simp only [BitVec.toNat_ofNat] at hl
    omega
  have hz : (h.zeroExtend 32).toNat = h.toNat := BitVec.toNat_setWidth_of_le (by decide)
  rw [← BitVec.toNat_inj, ← BitVec.toNat_inj, hd, hz, BitVec.toNat_ofNat]
  omega

/-- The value of a load is the one in memory, but for a halfword in the upper half. -/
theorem load_value {m : ExMem} {a : Word} (words : BitVec 21 → Word)
    (hoff : byteOffset a = byteOffset m.mem_mem_addr) (hm : is_load m.mem_aluop = true)
    (hal : (accessOf m a).Aligned) :
    mem_wdata_o m (merge (mem_sel_o m) (words ((chipAddr a).extractLsb' 2 21)) ZeroWord) =
        (accessOf m a).load (bytesOf words) ↔
      (accessOf m a).UpperHalfZero (bytesOf words) := by
  obtain ⟨i, hi⟩ : ∃ i, i = (chipAddr a).extractLsb' 2 21 := ⟨_, rfl⟩
  obtain ⟨k, hk⟩ : ∃ k, k = byteOffset m.mem_mem_addr := ⟨_, rfl⟩
  have haddr : chipAddr a = byteAddr i k := by
    rw [hi, hk, ← hoff, ← chipAddr_offset]
    exact (byteAddr_eq _).symm
  have hko : (byteAddr i k).extractLsb' 0 2 = k := byteAddr_offset i k
  rw [← hi]
  unfold ByteAccess.UpperHalfZero ByteAccess.load accessOf
  unfold ByteAccess.Aligned accessOf at hal
  unfold is_load at hm
  simp only [haddr, hko] at hal ⊢
  cases hop : m.mem_aluop <;> simp only [hop] at hm hal ⊢ <;> try (cases hm)
  case LB =>
    simp only [mem_wdata_o, mem_sel_o, hop, ← hk, byteLane_merge, bytesOf_byteAddr]
    simp
  case LBU =>
    simp only [mem_wdata_o, mem_sel_o, hop, ← hk, byteLane_merge, bytesOf_byteAddr]
    simp
  case LHU =>
    rcases hal with rfl | rfl
    · -- the lower half
      have hl : (merge 0b0011#4 (words i) ZeroWord).extractLsb' 0 16 =
          lane (words i) 1#2 ++ lane (words i) 0#2 := by
        rw [lower_half, lane_merge, lane_merge]
        rfl
      have hh : loadHalf (bytesOf words) (byteAddr i 0#2) =
          lane (words i) 1#2 ++ lane (words i) 0#2 := loadHalf_bytesOf words i 0#2 (by decide)
      simp only [mem_wdata_o, mem_sel_o, hop, ← hk, hl, hh]
      simp
    · -- the upper half
      have hl : (merge 0b1100#4 (words i) ZeroWord).extractLsb' 0 16 = 0#16 := by
        rw [lower_half, lane_merge, lane_merge, if_neg (by decide), if_neg (by decide)]
        decide
      have hu : (merge 0b1100#4 (words i) ZeroWord).extractLsb' 16 16 =
          lane (words i) 3#2 ++ lane (words i) 2#2 := by
        rw [upper_half, lane_merge, lane_merge]
        rfl
      have hh : loadHalf (bytesOf words) (byteAddr i 2#2) =
          lane (words i) 3#2 ++ lane (words i) 2#2 := loadHalf_bytesOf words i 2#2 (by decide)
      simp only [mem_wdata_o, mem_sel_o, hop, ← hk, hh, true_implies]
      exact slipped_half _ _ hl hu
  case LW =>
    subst hal
    simp only [mem_wdata_o, mem_sel_o, hop, merge_all, loadWord_bytesOf]
    simp

/-- The bytes after a store are those of the memory of bytes after it. -/
theorem store_bytes {m : ExMem} {a : Word} (held : Word) (words : BitVec 21 → Word)
    (hoff : byteOffset a = byteOffset m.mem_mem_addr) (hm : is_store m.mem_aluop = true)
    (hal : (accessOf m a).Aligned) :
    bytesOf (setWord words ((chipAddr a).extractLsb' 2 21)
        (merge (mem_sel_o m) (mem_data_o held m) (words ((chipAddr a).extractLsb' 2 21)))) =
      (accessOf m a).store (bytesOf words) := by
  obtain ⟨i, hi⟩ : ∃ i, i = (chipAddr a).extractLsb' 2 21 := ⟨_, rfl⟩
  obtain ⟨k, hk⟩ : ∃ k, k = byteOffset m.mem_mem_addr := ⟨_, rfl⟩
  have haddr : chipAddr a = byteAddr i k := by
    rw [hi, hk, ← hoff, ← chipAddr_offset]
    exact (byteAddr_eq _).symm
  have hko : (byteAddr i k).extractLsb' 0 2 = k := byteAddr_offset i k
  rw [← hi, bytesOf_setWord_merge]
  unfold ByteAccess.store accessOf
  unfold ByteAccess.Aligned accessOf at hal
  unfold is_store at hm
  simp only [haddr, hko] at hal ⊢
  cases hop : m.mem_aluop <;> simp only [hop] at hm hal ⊢ <;> try (cases hm)
  case SB =>
    have hb : lane (mem_data_o held m) k = m.mem_reg2.extractLsb' 0 8 := by
      unfold mem_data_o
      simp only [hop]
      obtain ⟨h0, h1, h2, h3⟩ := extract_bytes (m.mem_reg2.extractLsb' 0 8)
        (m.mem_reg2.extractLsb' 0 8) (m.mem_reg2.extractLsb' 0 8) (m.mem_reg2.extractLsb' 0 8)
      rcases offset_cases k with rfl | rfl | rfl | rfl
      · exact h0
      · exact h1
      · exact h2
      · exact h3
    have hs : mem_sel_o m = byteSel k := by
      unfold mem_sel_o
      simp only [hop]
      rw [hk]
    rw [hs, storeBytes_one _ i k _ _ (byteSel_iff k), hb]
  case SW =>
    subst hal
    have hs : mem_sel_o m = 0b1111#4 := by
      unfold mem_sel_o
      simp only [hop]
    have hd : mem_data_o held m = m.mem_reg2 := by
      unfold mem_data_o
      simp only [hop]
    rw [hs, hd, storeBytes_all]

/-! ## A program of accesses -/

/-- The access of an instruction. -/
def Turn.access (tlb : Tlb) (t : Turn) : ByteAccess := accessOf t.inst (t.addr tlb)

/-- A load or a store at an aligned address in the window of the chips. -/
structure Turn.Fits (tlb : Tlb) (t : Turn) : Prop where
  op : mem_ce_o t.inst = true
  aligned : (t.access tlb).Aligned
  ram : (t.addr tlb).extractLsb' 23 9 = 0#9

instance (tlb : Tlb) (t : Turn) : Decidable (t.Fits tlb) :=
  decidable_of_iff
    (mem_ce_o t.inst = true ∧ (t.access tlb).Aligned ∧ (t.addr tlb).extractLsb' 23 9 = 0#9)
    ⟨fun ⟨h, h', h''⟩ => ⟨h, h', h''⟩, fun ⟨h, h', h''⟩ => ⟨h, h', h''⟩⟩

theorem Turn.zero_mem_stalls (t : Turn) : 0b000000#6 ∈ t.stalls := by
  unfold Turn.stalls
  rw [List.mem_append]
  exact Or.inr List.mem_cons_self

theorem store_of_load {m : ExMem} (a : Word) (hm : is_load m.mem_aluop = true)
    (mem : BitVec 23 → BitVec 8) : (accessOf m a).store mem = mem := by
  unfold is_load at hm
  unfold ByteAccess.store accessOf
  cases hop : m.mem_aluop <;> simp [hop] at hm ⊢

/-- One instruction: the board comes back idle, the bytes are those of the memory after it,
and a load returns what it finds there but for a halfword in the upper half. -/
theorem turn_spec (f : Nat) {tlb : Tlb} {b : Board} {t : Turn} (hb : b.Idle) (ht : t.Fits tlb) :
    ∃ w b', b.turn (f + 6) tlb t = some (w, b') ∧ b'.Idle ∧
      b'.chips.bytes = (t.access tlb).store b.chips.bytes ∧
      (is_load t.inst.mem_aluop = true →
        (w = (t.access tlb).load b.chips.bytes ↔ (t.access tlb).UpperHalfZero b.chips.bytes)) := by
  obtain ⟨leave, stalls, hst⟩ : ∃ leave stalls, t.stalls = leave :: stalls :=
    List.exists_cons_of_ne_nil (List.ne_nil_of_mem t.zero_mem_stalls)
  have hz : 0b000000#6 ∈ leave :: stalls := hst ▸ t.zero_mem_stalls
  have hidx := accessIndex_of_ram ht.ram
  have hoff : byteOffset (t.addr tlb) = byteOffset t.inst.mem_mem_addr := by
    have ha : mem_addr_o t.inst = t.inst.mem_mem_addr := by
      unfold mem_addr_o
      rw [if_pos ht.op]
    unfold Turn.addr
    rw [vir2phy_offset, ha]
  have hop := ht.op
  unfold mem_ce_o at hop
  rw [Bool.or_eq_true] at hop
  unfold Board.turn
  simp only [hst]
  rcases hop with hload | hstore
  · obtain ⟨b', he, hl, hch⟩ := @exec_load t.held t.inst (t.addr tlb) leave f b hb
      hload
    obtain ⟨hi, hq⟩ := quietCycles_left stalls hl hz
    refine ⟨_, b'.quietCycles stalls, by rw [he]; rfl, hi, ?_, ?_⟩
    · rw [Turn.access, store_of_load _ hload, hq, hch]
    · intro _
      rw [hidx]
      exact load_value b.chips.words hoff hload ht.aligned
  · obtain ⟨v, b', he, hl, hch⟩ := @exec_store t.held t.inst (t.addr tlb) leave f b
      hb hstore
    obtain ⟨hi, hq⟩ := quietCycles_left stalls hl hz
    refine ⟨v, b'.quietCycles stalls, by rw [he]; rfl, hi, ?_, ?_⟩
    · rw [hq, Chips.bytes, hch, hidx]
      exact store_bytes t.held b.chips.words hoff hstore ht.aligned
    · intro hload
      unfold is_load at hload
      unfold is_store at hstore
      cases hop : t.inst.mem_aluop <;> simp [hop] at hload hstore

/-- A program: the bytes are always those of the memory of bytes, and the loads return
what that memory holds exactly when each halfword loaded from an upper half is zero. -/
theorem run_spec (f : Nat) {tlb : Tlb} {b : Board} {ts : List Turn} (hb : b.Idle)
    (hts : ∀ t ∈ ts, t.Fits tlb) :
    ∃ ws b', Board.run (f + 6) tlb b ts = some (ws, b') ∧ b'.Idle ∧
      b'.chips.bytes = ByteAccess.storeAll b.chips.bytes (ts.map (Turn.access tlb)) ∧
      (ws = ByteAccess.loadAll b.chips.bytes (ts.map (Turn.access tlb)) ↔
        ByteAccess.UpperHalvesZero b.chips.bytes (ts.map (Turn.access tlb))) := by
  induction ts generalizing b with
  | nil => exact ⟨[], b, rfl, hb, rfl, iff_of_true rfl trivial⟩
  | cons t ts ih =>
    obtain ⟨w, b', ht, hi, hbytes, hw⟩ := turn_spec f hb (hts t List.mem_cons_self)
    obtain ⟨ws, b'', hr, hi', hbytes', hws⟩ := ih hi fun u hu => hts u (List.mem_cons_of_mem t hu)
    have hrun : Board.run (f + 6) tlb b (t :: ts) =
        some (if is_load t.inst.mem_aluop then w :: ws else ws, b'') := by
      unfold Board.run
      simp only [ht, hr]
    refine ⟨_, b'', hrun, hi', by rw [hbytes', hbytes]; rfl, ?_⟩
    rw [hbytes] at hws
    simp only [List.map_cons, ByteAccess.loadAll, ByteAccess.UpperHalvesZero]
    rw [← hws]
    have hop : (t.access tlb).op = t.inst.mem_aluop := rfl
    rw [hop]
    cases hl : is_load t.inst.mem_aluop
    · have hu : (t.access tlb).UpperHalfZero b.chips.bytes := by
        intro hlhu
        rw [hop] at hlhu
        rw [hlhu] at hl
        cases hl
      simp [hu]
    · rw [← hw hl]
      simp

/-- Every load of the program returns what the memory of bytes holds. -/
def Board.ServesBytes (fuel : Nat) (tlb : Tlb) (b : Board) (ts : List Turn) : Prop :=
  ∃ b', Board.run fuel tlb b ts =
    some (ByteAccess.loadAll b.chips.bytes (ts.map (Turn.access tlb)), b')

theorem byte_memory_iff (fuel : Nat) (tlb : Tlb) (b : Board) (ts : List Turn) (hf : 6 ≤ fuel)
    (hb : b.Idle) (hts : ∀ t ∈ ts, t.Fits tlb) :
    b.ServesBytes fuel tlb ts ↔
      ByteAccess.UpperHalvesZero b.chips.bytes (ts.map (Turn.access tlb)) := by
  obtain ⟨f, rfl⟩ := Nat.exists_eq_add_of_le' hf
  obtain ⟨ws, b', hr, -, -, hws⟩ := run_spec f hb hts
  unfold Board.ServesBytes
  rw [hr, ← hws]
  constructor
  · rintro ⟨b'', he⟩
    rw [Option.some_inj, Prod.mk.injEq] at he
    exact he.1
  · rintro rfl
    exact ⟨b', rfl⟩

/-- A board after reset, with empty chips. -/
def emptyBoard : Board := ⟨.reset, .free ZeroWord, ⟨fun _ => ZeroWord, fun _ => ZeroWord⟩⟩

def emptyTlb : Tlb := fun _ => 0#63

/-- A load or a store at `0x80000000` and up, followed at once by the next. -/
def turnOf (op : AluOp) (offset value : Word) : Turn where
  inst :=
    ⟨⟨true, 1#5, ZeroWord⟩, .off, op, 0x80000000#32 + offset, value, .off, .clear, 0x80001000#32,
      false⟩
  held := ZeroWord
  held_index := 0#4
  waits := []
  rest := []

/-- `sw` of `0x12345678`, then `lhu` of its upper half gives `0x2468`. -/
theorem lhu_slips_by_a_bit :
    ¬ ∀ (fuel : Nat) (tlb : Tlb) (b : Board) (ts : List Turn), 6 ≤ fuel → b.Idle →
      (∀ t ∈ ts, t.Fits tlb) → b.ServesBytes fuel tlb ts := by
  intro h
  obtain ⟨b', hb'⟩ := h 6 emptyTlb emptyBoard
    [turnOf .SW 4#32 0x12345678#32, turnOf .LHU 6#32 ZeroWord] (by decide) ⟨rfl, rfl⟩
    (by decide +kernel)
  have hr : (Board.run 6 emptyTlb emptyBoard
      [turnOf .SW 4#32 0x12345678#32, turnOf .LHU 6#32 ZeroWord]).map Prod.fst =
        some [0x2468#32] := by
    decide +kernel
  have hl : ByteAccess.loadAll emptyBoard.chips.bytes
      ([turnOf .SW 4#32 0x12345678#32, turnOf .LHU 6#32 ZeroWord].map (Turn.access emptyTlb)) =
        [0x1234#32] := by
    decide +kernel
  rw [hb', hl] at hr
  exact absurd hr (by simp)

/-- A word, a byte of it overwritten, and all that is left readable at each width. -/
theorem byte_memory_of_mixed_widths :
    emptyBoard.ServesBytes 6 emptyTlb
      [turnOf .SW 4#32 0x12345678#32, turnOf .SB 5#32 0xFF#32, turnOf .LB 5#32 ZeroWord,
        turnOf .LBU 5#32 ZeroWord, turnOf .LHU 4#32 ZeroWord, turnOf .LHU 2#32 ZeroWord,
        turnOf .LW 4#32 ZeroWord] :=
  (byte_memory_iff 6 emptyTlb emptyBoard _ (by decide) ⟨rfl, rfl⟩ (by decide +kernel)).2
    (by decide +kernel)

end nehcpu.cpu
