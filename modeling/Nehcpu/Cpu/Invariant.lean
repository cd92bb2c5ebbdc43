-- What every reachable state of the pipeline keeps. The stall vector freezes `id`
-- while either bus waits, so the two bus masters and the bubbles in `ex` move in
-- step: an idle fetch means that `mem` has no access, and a fetch on its way means
-- that `ex` holds a bubble.
import Nehcpu.Cpu.Core
import Nehcpu.Lib.Machine

namespace nehcpu.cpu

open machine

/-- The registers of the data bus hold the access of the instruction in `mem`. -/
structure Latched (s : Cpu) : Prop where
  addr : s.dbus.wishbone_addr_o = phy_wb_addr s.data_vir2phy.physical_addr
  data : s.dbus.wishbone_data_o = mem_data_o s.held.mem.mem_data_o s.ex_mem
  we : s.dbus.wishbone_we_o = mem_we s.ex_mem
  sel : s.dbus.wishbone_sel_o = mem_sel_o s.ex_mem

/-- The outputs of a bus master follow its state. -/
def StrobeFits (b : WbBus) : Prop :=
  (b.wishbone_stb_o && b.wishbone_cyc_o) = decide (b.wishbone_state = .WB_BUSY)

structure Good (s : Cpu) : Prop where
  /-- before the first fetch there is nothing in the stages -/
  start : s.ce = false →
    s.ibus.wishbone_state = .WB_IDLE ∧ s.stages = ⟨.clear, .clear, .clear, .clear⟩
  fetch_idle : s.ibus.wishbone_state = .WB_IDLE →
    s.dbus.wishbone_state = .WB_IDLE ∧ mem_ce_o s.ex_mem = false
  fetch_active : s.ibus.wishbone_state ≠ .WB_IDLE → s.id_ex = s.id_ex.bubble
  /-- an answer that waits belongs to an instruction that has left `mem` -/
  data_wait : s.dbus.wishbone_state = .WB_WAIT_FOR_STALL → mem_ce_o s.ex_mem = false
  data_busy : s.dbus.wishbone_state = .WB_BUSY → mem_ce_o s.ex_mem = true ∧ Latched s
  strobe : StrobeFits s.dbus

theorem good_reset (regs : RegFile) : Good (Cpu.reset regs) := by
  refine ⟨fun _ => ⟨rfl, rfl⟩, fun _ => ⟨rfl, rfl⟩, ?_, ?_, ?_, rfl⟩
  · intro h
    exact absurd rfl h
  · intro _
    rfl
  · intro h
    cases h

/-! ## Bubbles -/

@[simp] theorem bubble_aluop (x : IdEx) : x.bubble.ex_aluop = .NOP := rfl

@[simp] theorem bubble_wreg (x : IdEx) : x.bubble.ex_wreg = false := rfl

@[simp] theorem bubble_bubble (x : IdEx) : x.bubble.bubble = x.bubble := rfl

theorem clear_is_bubble : IdEx.clear = IdEx.clear.bubble := rfl

@[simp] theorem mem_ce_o_clear : mem_ce_o ExMem.clear = false := rfl

variable {s : Cpu} {i : CpuIn}

@[simp] theorem ex_out_aluop : (s.ex_out i).mem_aluop = s.id_ex.ex_aluop := rfl

/-- A bubble in `ex` is no access when it comes to `mem`. -/
theorem mem_ce_o_of_bubble (h : s.id_ex = s.id_ex.bubble) : mem_ce_o (s.ex_out i) = false := by
  unfold mem_ce_o
  rw [ex_out_aluop, h, bubble_aluop]
  rfl

/-- A bubble in `ex` is no load, so `id` does not wait for it. -/
theorem stallreq_from_id_of_bubble (h : s.id_ex = s.id_ex.bubble) :
    s.stallreq_from_id i = false := by
  unfold Cpu.stallreq_from_id stallreq_for_reg_loadrelate Cpu.bypass
  rw [h, bubble_aluop]
  rfl

/-! ## The data bus and the stall -/

/-- The data bus asks for a stall only while the fetch is on its way. -/
theorem fetch_active_of_memStall (h : Good s) (hm : s.stallreq_from_mem i = true) :
    s.ibus.wishbone_state ≠ .WB_IDLE := by
  intro hi
  obtain ⟨hd, hc⟩ := h.fetch_idle hi
  simp [Cpu.stallreq_from_mem, WbBus.stallreq, hd, hc] at hm

/-- `ex` holds a bubble whenever `id` hands over. -/
theorem bubble_of_run (h : Good s) (hf : s.flush = false) (hst : s.stall i = 0b000000#6) :
    s.id_ex = s.id_ex.bubble := by
  by_cases hi : s.ibus.wishbone_state = .WB_IDLE
  · obtain ⟨_, _, hq⟩ := (Cpu.stall_eq_zero_iff hf).1 hst
    -- an idle fetch that asks for no stall is one that has not started
    have hce : s.ce = false := by
      simpa [Cpu.stallreq_from_if, WbBus.stallreq, hi, hf] using hq
    have hx := congrArg Cpu.Stages.id_ex (h.start hce).2
    simp only [Cpu.stages] at hx
    rw [hx]
    exact clear_is_bubble
  · exact h.fetch_active hi

/-- `id` waits for a load only in the cycle before the fetch starts, so a stall of `id`
or of the fetch never finds the CPU before its first fetch. -/
theorem ce_of_hold (h : Good s)
    (hq : s.stallreq_from_id i = true ∨ s.stallreq_from_if i = true) : s.ce = true := by
  by_contra hce
  rw [Bool.not_eq_true] at hce
  obtain ⟨hi, hst⟩ := h.start hce
  have hx : s.id_ex = IdEx.clear := congrArg Cpu.Stages.id_ex hst
  rcases hq with hq | hq
  · rw [stallreq_from_id_of_bubble (by rw [hx]; exact clear_is_bubble)] at hq
    cases hq
  · simp [Cpu.stallreq_from_if, WbBus.stallreq, hi, hce] at hq

/-- The two masters are idle after an edge with no stall. -/
theorem buses_idle_of_noStall (hst : s.stall i = 0b000000#6) :
    (s.step i).ibus.wishbone_state = .WB_IDLE ∧ (s.step i).dbus.wishbone_state = .WB_IDLE := by
  by_cases hf : s.flush = true
  · exact ⟨WbBus.next_state_of_noStall hst (Or.inr hf),
      WbBus.next_state_of_noStall hst (Or.inr hf)⟩
  · rw [Bool.not_eq_true] at hf
    obtain ⟨hm, _, hq⟩ := (Cpu.stall_eq_zero_iff hf).1 hst
    exact ⟨WbBus.next_state_of_noStall hst (Or.inl hq),
      WbBus.next_state_of_noStall hst (Or.inl hm)⟩

/-! ## The latched access -/

/-- While the instruction in `mem` stays, so does what it asks of the data bus. -/
theorem request_stays (hx : (s.step i).ex_mem = s.ex_mem) (hc : mem_ce_o s.ex_mem = true) :
    (s.step i).data_vir2phy = s.data_vir2phy ∧
      mem_data_o (s.step i).held.mem.mem_data_o (s.step i).ex_mem =
        mem_data_o s.held.mem.mem_data_o s.ex_mem := by
  have ht : (s.step i).tlb = s.tlb := by
    apply Tlb.next_disabled
    have hne : s.ex_mem.mem_aluop ≠ .TLBWI := by
      intro he
      simp [mem_ce_o, is_load, is_store, he] at hc
    simpa [Cpu.tlb_write, tlb_write_struct_o] using hne
  have hh : (s.step i).held.data_hit_index =
      hit_index s.held.data_hit_index s.tlb (mem_addr_o s.ex_mem) := rfl
  have hd : (s.step i).held.mem.mem_data_o = mem_data_o s.held.mem.mem_data_o s.ex_mem := rfl
  constructor
  · unfold Cpu.data_vir2phy vir2phy
    rw [hx, ht, hh, hit_index_idem]
  · rw [hx, hd]
    unfold mem_data_o
    cases s.ex_mem.mem_aluop <;> rfl

theorem latched_stays (h : Latched s) (hx : (s.step i).ex_mem = s.ex_mem)
    (hb : (s.step i).dbus = s.dbus) (hc : mem_ce_o s.ex_mem = true) : Latched (s.step i) := by
  obtain ⟨hv, hd⟩ := request_stays hx hc
  refine ⟨?_, ?_, ?_, ?_⟩
  · rw [hb, hv]
    exact h.addr
  · rw [hb, hd]
    exact h.data
  · rw [hb, hx]
    exact h.we
  · rw [hb, hx]
    exact h.sel

/-- The edge at which the master takes a request up. -/
theorem latched_of_request (hd : s.dbus.wishbone_state = .WB_IDLE) (hf : s.flush = false)
    (hc : mem_ce_o s.ex_mem = true) (hx : (s.step i).ex_mem = s.ex_mem) :
    (s.step i).dbus.wishbone_state = .WB_BUSY ∧ Latched (s.step i) := by
  have hb : (s.step i).dbus =
      ⟨.WB_BUSY, phy_wb_addr s.data_vir2phy.physical_addr,
        mem_data_o s.held.mem.mem_data_o s.ex_mem, mem_we_o s.ex_mem s.excepttype,
        mem_sel_o s.ex_mem, true, true, ZeroWord⟩ := WbBus.next_idle_request hd hc hf
  have he : mem_we_o s.ex_mem s.excepttype = mem_we s.ex_mem := by
    have hn : s.excepttype = .none := by simpa [Cpu.flush] using hf
    simp [mem_we_o, hn]
  obtain ⟨hv, hm⟩ := request_stays hx hc
  refine ⟨by rw [hb], ?_, ?_, ?_, ?_⟩
  · rw [hb, hv]
  · rw [hb, hm]
  · rw [hb, hx]
    exact he
  · rw [hb, hx]

theorem strobeFits_next {b : WbBus} {st : BitVec 6} {f : Bool} {r : CpuReq} {a : WbAnswer}
    (h : StrobeFits b) : StrobeFits (b.next st f r a) := by
  unfold StrobeFits at *
  rcases hs : b.wishbone_state with _ | _ | _
  · by_cases hq : r.cpu_ce_i = true ∧ f = false
    · rw [WbBus.next_idle_request hs hq.1 hq.2]
      rfl
    · have hn : r.cpu_ce_i = false ∨ f = true := by
        rcases Decidable.not_and_iff_or_not.1 hq with h1 | h1
        · exact Or.inl (by simpa using h1)
        · exact Or.inr (by simpa using h1)
      rw [WbBus.next_idle_quiet hs hn]
      exact h
  · cases ha : a.wishbone_ack_i
    · cases f
      · rw [WbBus.next_busy_stay hs ha rfl]
        exact h
      · rw [WbBus.next_busy_flush hs ha rfl]
        rfl
    · rw [WbBus.next_busy_ack hs ha]
      by_cases hst : st = 0b000000#6
      · simp [WbBus.release, hst]
      · simp [WbBus.release, hst]
  · by_cases hst : st = 0b000000#6
    · rw [WbBus.next_wait_run hs hst]
      simp only [hs] at h
      simpa using h
    · rw [WbBus.next_wait_stay hs hst]
      exact h

/-! ## Each kind of edge keeps the invariant -/

/-- After a flush, and after an edge with no stall, both masters are idle, and all that is
left to show is that no access came to `mem`. -/
theorem good_of_noStall (h : Good s) (hst : s.stall i = 0b000000#6)
    (hc : mem_ce_o (s.step i).ex_mem = false) : Good (s.step i) := by
  obtain ⟨hi, hd⟩ := buses_idle_of_noStall hst
  refine ⟨?_, fun _ => ⟨hd, hc⟩, fun hne => absurd hi hne, fun _ => hc, ?_,
    strobeFits_next h.strobe⟩
  · intro hce
    cases hce
  · intro hb
    rw [hd] at hb
    cases hb

theorem good_of_flush (h : Good s) (hf : s.flush = true) : Good (s.step i) := by
  apply good_of_noStall h (Cpu.stall_of_flush hf)
  have hx := congrArg Cpu.Stages.ex_mem (Cpu.stages_of_flush (i := i) hf)
  simp only [Cpu.stages] at hx
  rw [hx]
  rfl

theorem good_of_run (h : Good s) (hf : s.flush = false) (hst : s.stall i = 0b000000#6) :
    Good (s.step i) := by
  apply good_of_noStall h hst
  have hx := congrArg Cpu.Stages.ex_mem (Cpu.stages_of_run hf hst)
  simp only [Cpu.stages] at hx
  rw [hx]
  exact mem_ce_o_of_bubble (bubble_of_run h hf hst)

theorem good_of_memStall (h : Good s) (hf : s.flush = false)
    (hm : s.stallreq_from_mem i = true) : Good (s.step i) := by
  have hst : s.stall i = 0b011111#6 := Cpu.stall_of_memStall hf hm
  have hia := fetch_active_of_memStall h hm
  have hs := Cpu.stages_of_memStall hf hm
  have hex : (s.step i).id_ex = s.id_ex := congrArg Cpu.Stages.id_ex hs
  have hx : (s.step i).ex_mem = s.ex_mem := congrArg Cpu.Stages.ex_mem hs
  have hib : (s.step i).ibus.wishbone_state ≠ .WB_IDLE := by
    have hn : (s.ibus.next (s.stall i) false s.inst_req i.iwishbone).wishbone_state ≠ .WB_IDLE :=
      WbBus.next_state_of_stall hia (by rw [hst]; decide)
    simpa [Cpu.step, hf] using hn
  -- the master takes the request up, or goes on waiting for the answer
  have hdb : (s.step i).dbus.wishbone_state = .WB_BUSY ∧ mem_ce_o s.ex_mem = true ∧
      Latched (s.step i) := by
    rcases hd : s.dbus.wishbone_state with _ | _ | _
    · have hc : mem_ce_o s.ex_mem = true := by
        simpa [Cpu.stallreq_from_mem, WbBus.stallreq, hd, hf] using hm
      obtain ⟨h1, h2⟩ := latched_of_request (i := i) hd hf hc hx
      exact ⟨h1, hc, h2⟩
    · have ha : i.dwishbone.wishbone_ack_i = false := by
        simpa [Cpu.stallreq_from_mem, WbBus.stallreq, hd] using hm
      have hb : (s.step i).dbus = s.dbus := WbBus.next_busy_stay hd ha hf
      obtain ⟨hc, hl⟩ := h.data_busy hd
      exact ⟨by rw [hb, hd], hc, latched_stays hl hx hb hc⟩
    · simp [Cpu.stallreq_from_mem, WbBus.stallreq, hd] at hm
  obtain ⟨hbusy, hc, hl⟩ := hdb
  refine ⟨?_, fun hi => absurd hi hib, ?_, ?_, ?_, strobeFits_next h.strobe⟩
  · intro hce
    cases hce
  · intro _
    rw [hex]
    exact h.fetch_active hia
  · intro hw
    rw [hbusy] at hw
    cases hw
  · intro _
    exact ⟨by rw [hx]; exact hc, hl⟩

theorem good_of_hold (h : Good s) (hf : s.flush = false) (hm : s.stallreq_from_mem i = false)
    (hq : s.stallreq_from_id i = true ∨ s.stallreq_from_if i = true) : Good (s.step i) := by
  obtain ⟨hst, hs⟩ := Cpu.stages_of_hold hf hm hq
  have hex : (s.step i).id_ex = s.id_ex.bubble := congrArg Cpu.Stages.id_ex hs
  have hx : (s.step i).ex_mem = s.ex_out i := congrArg Cpu.Stages.ex_mem hs
  have hne : s.stall i ≠ 0b000000#6 := by
    rw [hst]
    decide
  have hib : (s.step i).ibus.wishbone_state ≠ .WB_IDLE := by
    by_cases hi : s.ibus.wishbone_state = .WB_IDLE
    · have hn : (s.step i).ibus =
          ⟨.WB_BUSY, phy_wb_addr s.inst_req.cpu_addr_i, ZeroWord, false, 0b1111#4, true, true,
            ZeroWord⟩ := WbBus.next_idle_request hi (ce_of_hold h hq) hf
      simp [hn]
    · have hn := WbBus.next_state_of_stall (r := s.inst_req) (a := i.iwishbone) hi hne
      simpa [Cpu.step, hf] using hn
  -- the answer that `mem` has taken is put aside, and no new request is made
  have hdb : (s.step i).dbus.wishbone_state ≠ .WB_BUSY ∧
      ((s.step i).dbus.wishbone_state = .WB_WAIT_FOR_STALL →
        s.ibus.wishbone_state ≠ .WB_IDLE) := by
    rcases hd : s.dbus.wishbone_state with _ | _ | _
    · have hc : mem_ce_o s.ex_mem = false := by
        simpa [Cpu.stallreq_from_mem, WbBus.stallreq, hd, hf] using hm
      have hb : (s.step i).dbus = s.dbus := WbBus.next_idle_quiet hd (Or.inl hc)
      rw [hb, hd]
      exact ⟨by decide, fun hw => by cases hw⟩
    · have ha : i.dwishbone.wishbone_ack_i = true := by
        simpa [Cpu.stallreq_from_mem, WbBus.stallreq, hd] using hm
      refine ⟨?_, fun _ hi => ?_⟩
      · have hb : (s.step i).dbus = _ := WbBus.next_busy_ack hd ha
        simp [hb, hne]
      · rw [(h.fetch_idle hi).1] at hd
        cases hd
    · have hb : (s.step i).dbus = s.dbus := WbBus.next_wait_stay hd hne
      rw [hb, hd]
      refine ⟨by decide, fun _ hi => ?_⟩
      rw [(h.fetch_idle hi).1] at hd
      cases hd
  refine ⟨?_, fun hi => absurd hi hib, ?_, ?_, ?_, strobeFits_next h.strobe⟩
  · intro hce
    cases hce
  · intro _
    rw [hex, bubble_bubble]
  · intro hw
    rw [hx]
    exact mem_ce_o_of_bubble (h.fetch_active (hdb.2 hw))
  · intro hb
    exact absurd hb hdb.1

/-! ## Every edge, every run -/

/-- The four kinds of edge. -/
theorem edge_cases (s : Cpu) (i : CpuIn) :
    s.flush = true ∨
    (s.flush = false ∧ s.stallreq_from_mem i = true) ∨
    (s.flush = false ∧ s.stallreq_from_mem i = false ∧
      (s.stallreq_from_id i = true ∨ s.stallreq_from_if i = true)) ∨
    (s.flush = false ∧ s.stall i = 0b000000#6) := by
  by_cases hf : s.flush = true
  · exact Or.inl hf
  · rw [Bool.not_eq_true] at hf
    rcases Bool.eq_false_or_eq_true (s.stallreq_from_mem i) with hm | hm
    · exact Or.inr (Or.inl ⟨hf, hm⟩)
    · by_cases hq : s.stallreq_from_id i = true ∨ s.stallreq_from_if i = true
      · exact Or.inr (Or.inr (Or.inl ⟨hf, hm, hq⟩))
      · rw [not_or, Bool.not_eq_true, Bool.not_eq_true] at hq
        exact Or.inr (Or.inr (Or.inr ⟨hf, (Cpu.stall_eq_zero_iff hf).2 ⟨hm, hq⟩⟩))

theorem good_step (s : Cpu) (i : CpuIn) (h : Good s) : Good (s.step i) := by
  rcases edge_cases s i with hf | ⟨hf, hm⟩ | ⟨hf, hm, hq⟩ | ⟨hf, hst⟩
  · exact good_of_flush h hf
  · exact good_of_memStall h hf hm
  · exact good_of_hold h hf hm hq
  · exact good_of_run h hf hst

/-- The state after a list of inputs, from reset. -/
def Cpu.run (regs : RegFile) (is : List CpuIn) : Cpu := runFrom Cpu.step (Cpu.reset regs) is

/-- Cycles to write runs with: no answer, an answer to the fetch, and an answer to both. -/
def CpuIn.quiet : CpuIn := ⟨0x00#8, ⟨ZeroWord, false⟩, ⟨ZeroWord, false⟩⟩
def CpuIn.fetched (inst : Word) : CpuIn := { CpuIn.quiet with iwishbone := ⟨inst, true⟩ }
def CpuIn.loaded (data : Word) : CpuIn := { CpuIn.quiet with dwishbone := ⟨data, true⟩ }

theorem good_run (regs : RegFile) (is : List CpuIn) : Good (Cpu.run regs is) :=
  invariant_of_anyRun good_step is (good_reset regs)

end nehcpu.cpu
