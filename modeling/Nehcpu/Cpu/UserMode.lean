-- The user mode bit of Status. The CPU keeps it and shows it to MFC0, and nothing else looks at
-- it: no address, no instruction and no exception depends on the mode.
import Nehcpu.Lib.Machine
import Nehcpu.Cpu.Invariant

namespace nehcpu.cpu

open machine

/-! ## The mode -/

/-- `UM`, bit 4 of Status -/
def UM (status : Word) : Bool := status[4]

/-- `EXL`, bit 1 of Status -/
def EXL (status : Word) : Bool := getElem status 1 bit1_lt

/-- Two words with the same bits beside `UM`. -/
def SameButUM (a b : Word) : Prop := ∀ k, k ≠ 4 → a.getLsbD k = b.getLsbD k

theorem SameButUM.refl (a : Word) : SameButUM a a := fun _ _ => rfl

theorem SameButUM.maskWrite {a b : Word} (h : SameButUM a b) (mask new : Word) :
    SameButUM (maskWrite mask a new) (maskWrite mask b new) := by
  intro k hk
  rw [getLsbD_maskWrite, getLsbD_maskWrite, h k hk]

/-- `mem` sees the same interrupts. -/
theorem SameButUM.interruptTaken {a b : Word} (h : SameButUM a b) (cause : Word) :
    interruptTaken cause a = interruptTaken cause b := by
  have hmask : a.extractLsb' 8 8 = b.extractLsb' 8 8 := by
    apply BitVec.eq_of_getLsbD_eq
    intro k hk
    rw [BitVec.getLsbD_extractLsb', BitVec.getLsbD_extractLsb', h (8 + k) (by omega)]
  have h1 : a[1] = b[1] := h 1 (by decide)
  have h0 : a[0] = b[0] := h 0 (by decide)
  unfold cpu.interruptTaken
  rw [hmask, h1, h0]

/-! ## Two states that differ in the mode -/

def Cp0.withStatus (c : Cp0) (status : Word) : Cp0 := { c with status_o := status }

/-- The registers differ in the mode at most. -/
def Cp0.SameMode (c c' : Cp0) : Prop :=
  ∃ status, SameButUM status c.status_o ∧ c' = c.withStatus status

theorem Cp0.SameMode.ite {p : Prop} [Decidable p] {a b a' b' : Cp0} (ha : a.SameMode a')
    (hb : b.SameMode b') : (if p then a else b).SameMode (if p then a' else b') := by
  by_cases hp : p
  · rw [if_pos hp, if_pos hp]
    exact ha
  · rw [if_neg hp, if_neg hp]
    exact hb

theorem Cp0.SameMode.tick {c c' : Cp0} (h : c.SameMode c') (int_i : BitVec 8) :
    (c.tick int_i).SameMode (c'.tick int_i) := by
  obtain ⟨status, hs, rfl⟩ := h
  exact ⟨status, hs, rfl⟩

theorem Cp0.SameMode.write {c c' : Cp0} (h : c.SameMode c') (w : Cp0Write) :
    (c.write w).SameMode (c'.write w) := by
  obtain ⟨status, hs, rfl⟩ := h
  unfold Cp0.write
  -- The eighth branch writes Status.
  refine .ite (.ite ?_ (.ite ?_ (.ite ?_ (.ite ?_ (.ite ?_ (.ite ?_ (.ite ?_
    (.ite ?status (.ite ?_ (.ite ?_ (.ite ?_ ?_))))))))))) ?_
  case status => exact ⟨_, hs.maskWrite STATUS_MASK w.cp0_reg_data, rfl⟩
  all_goals exact ⟨status, hs, rfl⟩

theorem Cp0.SameMode.except {c c' : Cp0} (h : c.SameMode c') (e : Except) (x : ExcInfo) :
    (c.except e x).SameMode (c'.except e x) := by
  obtain ⟨status, hs, rfl⟩ := h
  cases e with
  | none => exact ⟨status, hs, rfl⟩
  | eret => exact ⟨_, hs.maskWrite EXL_MASK ZeroWord, rfl⟩
  | _ => exact ⟨_, hs.maskWrite EXL_MASK EXL_MASK, rfl⟩

theorem Cp0.SameMode.next {c c' : Cp0} (h : c.SameMode c') (int_i : BitVec 8) (w : Cp0Write)
    (e : Except) (x : ExcInfo) : (c.next int_i w e x).SameMode (c'.next int_i w e x) :=
  ((h.tick int_i).write w).except e x

/-- MFC0 of any register but Status reads the same. -/
theorem cp0_data_withStatus (held : Word) (c : Cp0) (status : Word) (int_i : BitVec 8)
    {raddr : RegAddr} (hr : raddr ≠ CP0_REG_STATUS) :
    cp0_data_o held (c.withStatus status) int_i raddr = cp0_data_o held c int_i raddr := by
  unfold cp0_data_o
  rw [if_neg hr, if_neg hr]
  rfl

namespace Cpu

def withStatus (s : Cpu) (status : Word) : Cpu := { s with cp0 := s.cp0.withStatus status }

variable {s : Cpu} {status : Word}

/-! ## The signals of one cycle -/

theorem excepttype_withStatus (h : SameButUM status s.cp0.status_o) :
    (s.withStatus status).excepttype = s.excepttype := by
  have hst : SameButUM (mem_cp0_status (s.cp0.withStatus status) s.mem_wb.wb_cp0)
      (mem_cp0_status s.cp0 s.mem_wb.wb_cp0) := by
    unfold mem_cp0_status cp0Latest
    split
    · exact SameButUM.refl _
    · exact h
  have hint := hst.interruptTaken (mem_cp0_cause s.held.mem s.cp0 s.mem_wb.wb_cp0)
  unfold excepttype excepttype_o
  rw [← hint]
  rfl

/-- What a cycle shows is the same, while the read port of CP0 is not at Status. -/
structure SameSignals (s t : Cpu) (i : CpuIn) : Prop where
  excepttype : t.excepttype = s.excepttype
  new_pc : t.new_pc = s.new_pc
  stall : t.stall i = s.stall i
  data_req : t.data_req = s.data_req
  id_branch : t.id_branch i = s.id_branch i
  if_out : t.if_out i = s.if_out i
  id_out : t.id_out i = s.id_out i
  ex_out : t.ex_out i = s.ex_out i
  mem_out : t.mem_out i = s.mem_out i
  held : t.next_held i = s.next_held i

theorem sameSignals (h : SameButUM status s.cp0.status_o) (hr : s.cp0_raddr ≠ CP0_REG_STATUS)
    (i : CpuIn) : SameSignals s (s.withStatus status) i := by
  have hexc := excepttype_withStatus h
  have hflush : (s.withStatus status).flush = s.flush := by
    unfold flush
    rw [hexc]
  have hram : (s.withStatus status).ram_data i = s.ram_data i := by
    unfold ram_data
    rw [hflush]
    rfl
  have hinst : (s.withStatus status).inst_data i = s.inst_data i := by
    unfold inst_data
    rw [hflush]
    rfl
  have hmem : (s.withStatus status).mem_reg i = s.mem_reg i := by
    unfold mem_reg
    rw [hram]
    rfl
  have hcp0 : (s.withStatus status).cp0_data i = s.cp0_data i :=
    cp0_data_withStatus s.held.cp0_data_o s.cp0 status i.int_i hr
  have hfwd : (s.withStatus status).cp0_fwd i = s.cp0_fwd i := by
    unfold cp0_fwd
    rw [hcp0]
    rfl
  have hex : (s.withStatus status).ex_reg i = s.ex_reg i := by
    unfold ex_reg
    rw [hfwd]
    rfl
  have hbypass : (s.withStatus status).bypass i = s.bypass i := by
    unfold bypass
    rw [hex, hmem]
    rfl
  have hreg1 : (s.withStatus status).reg1_o i = s.reg1_o i := by
    unfold reg1_o
    rw [hbypass]
    rfl
  have hreg2 : (s.withStatus status).reg2_o i = s.reg2_o i := by
    unfold reg2_o
    rw [hbypass]
    rfl
  constructor
  · exact hexc
  · unfold new_pc
    rw [hexc]
    rfl
  · unfold stall stallreq_from_mem stallreq_from_id stallreq_from_if
    rw [hflush, hbypass]
    rfl
  · unfold data_req
    rw [hexc]
    rfl
  · unfold id_branch
    rw [hreg1, hreg2]
    rfl
  · unfold if_out
    rw [hinst]
    rfl
  · unfold id_out
    rw [hreg1, hreg2]
    rfl
  · unfold ex_out
    rw [hex]
    rfl
  · unfold mem_out
    rw [hmem]
    rfl
  · unfold next_held
    rw [hreg1, hreg2, hfwd, hcp0, hinst, hram]
    rfl

/-! ## Runs -/

/-- One edge keeps the two states together. -/
theorem step_withStatus (h : SameButUM status s.cp0.status_o) (hr : s.cp0_raddr ≠ CP0_REG_STATUS)
    (i : CpuIn) :
    ∃ status', SameButUM status' (s.step i).cp0.status_o ∧
      (s.withStatus status).step i = (s.step i).withStatus status' := by
  have hs := sameSignals h hr i
  have hflush : (s.withStatus status).flush = s.flush := by
    unfold flush
    rw [hs.excepttype]
  have hmode : s.cp0.SameMode (s.withStatus status).cp0 := ⟨status, h, rfl⟩
  obtain ⟨status', h', he⟩ := hmode.next i.int_i s.mem_wb.wb_cp0 s.excepttype s.exc_info
  refine ⟨status', h', ?_⟩
  unfold step
  rw [hs.excepttype, hs.stall, hs.data_req, hs.if_out, hs.id_out, hs.ex_out, hs.mem_out, hs.held,
    hflush]
  have hpc : (s.withStatus status).next_pc i = s.next_pc i := by
    unfold next_pc
    rw [hs.new_pc, hs.stall, hs.id_branch, hflush]
    rfl
  rw [hpc]
  exact congrArg (fun c => { s.step i with cp0 := c }) he

/-- The last register that MFC0 named is not Status. -/
def StatusUnread (s : Cpu) (_ : CpuIn) : Prop := s.cp0_raddr ≠ CP0_REG_STATUS

instance (s : Cpu) (i : CpuIn) : Decidable (StatusUnread s i) :=
  inferInstanceAs (Decidable (_ ≠ _))

theorem run_withStatus (is : List CpuIn) : ∀ {s : Cpu} {status : Word},
    SameButUM status s.cp0.status_o → StepsMeet step StatusUnread s is →
    ∃ status', SameButUM status' (runFrom step s is).cp0.status_o ∧
      runFrom step (s.withStatus status) is = (runFrom step s is).withStatus status' := by
  induction is with
  | nil => exact fun h _ => ⟨_, h, rfl⟩
  | cons i is ih =>
    intro s status h hr
    obtain ⟨status1, h1, he1⟩ := step_withStatus h hr.1 i
    rw [runFrom_cons, runFrom_cons, he1]
    exact ih h1 hr.2

/-! ## Where an access goes -/

/-- The address is in `kseg0` or `kseg1`, and its upper bits are dropped. -/
def InSegment (va pa : Word) : Prop :=
  is_kseg0_kseg1 va = true ∧ pa = 0b000#3 ++ va.extractLsb' 0 29

/-- A valid entry has the page of the address, and for a store it is dirty. -/
def InTlb (tlb : Tlb) (va : Word) (write : Bool) (pa : Word) : Prop :=
  is_kseg0_kseg1 va = false ∧
    ∃ e, vpn2 (tlb e) = vpn2Of va ∧ validOf (tlb e) (getElem va 12 bit12_lt) = true ∧
      (write = true → dirtyOf (tlb e) (getElem va 12 bit12_lt) = true) ∧
      pa = pfnOf (tlb e) (getElem va 12 bit12_lt) ++ va.extractLsb' 0 12

/-- With no miss the index that answers is that of an entry for the address. -/
theorem vir2phy_inTlb {held : BitVec 4} {tlb : Tlb} {va : Word} {write : Bool}
    (hk : is_kseg0_kseg1 va = false) (hm : (vir2phy held tlb va).tlb_miss = false)
    (hv : (vir2phy held tlb va).V = true)
    (hd : write = true → (vir2phy held tlb va).D = true) :
    InTlb tlb va write (vir2phy held tlb va).physical_addr := by
  have hhit : ∃ e, vpn2 (tlb e) = vpn2Of va := by
    by_contra hn
    have hmiss := (tlb_miss_iff tlb va).2 fun e he => hn ⟨e, he⟩
    exact absurd (hm.symm.trans hmiss) Bool.false_ne_true
  refine ⟨hk, hit_index held tlb va, hit_index_spec held tlb va hhit, hv, hd, ?_⟩
  unfold vir2phy
  rw [hk]
  rfl

theorem vir2phy_inSegment {held : BitVec 4} {tlb : Tlb} {va : Word}
    (hk : is_kseg0_kseg1 va = true) : InSegment va (vir2phy held tlb va).physical_addr := by
  refine ⟨hk, ?_⟩
  unfold vir2phy
  rw [hk]
  rfl

/-- With no exception none of the flags of `mmu` is up. -/
theorem flags_of_excepttype (h : s.excepttype = .none)
    (hinst : s.ex_mem.mem_current_inst_addr ≠ ZeroWord)
    (haddr : s.ex_mem.mem_mem_addr ≠ ZeroWord) :
    s.mmu_flags.is_tlbl_data = false ∧ s.mmu_flags.is_tlbs = false ∧
      s.mmu_flags.is_tlb_modify = false := by
  unfold excepttype excepttype_o at h
  rw [if_pos hinst] at h
  refine ⟨?_, ?_, ?_⟩
  · by_contra hf
    rw [Bool.not_eq_false] at hf
    simp only [hf, haddr, ne_eq, not_false_eq_true, and_self, if_true] at h
    split_ifs at h
  · by_contra hf
    rw [Bool.not_eq_false] at hf
    simp only [hf, haddr, ne_eq, not_false_eq_true, and_self, if_true] at h
    split_ifs at h
  · by_contra hf
    rw [Bool.not_eq_false] at hf
    simp only [hf, haddr, ne_eq, not_false_eq_true, and_self, if_true] at h
    split_ifs at h

/-- A load or store that takes no exception goes to a segment or through the TLB. -/
theorem data_reaches (h : s.excepttype = .none) (hce : mem_ce_o s.ex_mem = true)
    (hinst : s.ex_mem.mem_current_inst_addr ≠ ZeroWord)
    (haddr : s.ex_mem.mem_mem_addr ≠ ZeroWord) :
    InSegment s.ex_mem.mem_mem_addr s.data_req.cpu_addr_i ∨
      InTlb s.tlb s.ex_mem.mem_mem_addr (mem_we s.ex_mem) s.data_req.cpu_addr_i := by
  have ha : mem_addr_o s.ex_mem = s.ex_mem.mem_mem_addr := by
    unfold mem_addr_o
    rw [if_pos hce]
  have hreq : s.data_req.cpu_addr_i =
      (vir2phy s.held.data_hit_index s.tlb s.ex_mem.mem_mem_addr).physical_addr := by
    unfold data_req data_vir2phy
    rw [ha]
  rw [hreq]
  cases hk : is_kseg0_kseg1 s.ex_mem.mem_mem_addr with
  | true => exact Or.inl (vir2phy_inSegment hk)
  | false =>
    obtain ⟨h1, h2, h3⟩ := flags_of_excepttype h hinst haddr
    have hne : (s.ex_mem.mem_mem_addr != ZeroWord) = true := bne_iff_ne.2 haddr
    unfold mmu_flags is_tlbl_data is_tlbs is_tlb_modify data_vir2phy at h1 h2 h3
    rw [ha] at h1 h2 h3
    have hseg : (vir2phy s.held.data_hit_index s.tlb s.ex_mem.mem_mem_addr).is_kseg0_kseg1 = false :=
      hk
    rw [hseg, hne] at h1 h2 h3
    right
    cases hw : mem_we s.ex_mem with
    | true =>
      simp only [hw, Bool.not_false, Bool.true_and, Bool.or_eq_false_iff, Bool.not_eq_false'] at h2 h3
      exact vir2phy_inTlb hk h2.1 h2.2 fun _ => h3
    | false =>
      simp only [hw, Bool.not_false, Bool.true_and, Bool.or_eq_false_iff, Bool.not_eq_false'] at h1
      exact vir2phy_inTlb hk h1.1 h1.2 fun hf => absurd hf Bool.false_ne_true

/-- So does a fetch that is not marked, while no store is in `mem`. -/
theorem inst_reaches (h : s.mmu_is_tlbl_inst = false) (hpc : s.pc ≠ ZeroWord)
    (hw : mem_we s.ex_mem = false) :
    InSegment s.pc s.inst_req.cpu_addr_i ∨ InTlb s.tlb s.pc false s.inst_req.cpu_addr_i := by
  cases hk : is_kseg0_kseg1 s.pc with
  | true => exact Or.inl (vir2phy_inSegment hk)
  | false =>
    have hne : (s.pc != ZeroWord) = true := bne_iff_ne.2 hpc
    have hseg : s.inst_vir2phy.is_kseg0_kseg1 = false := hk
    unfold mmu_is_tlbl_inst is_tlbl_inst at h
    rw [hseg, hne, hw] at h
    simp only [Bool.not_false, Bool.true_and, Bool.or_eq_false_iff, Bool.not_eq_false'] at h
    exact Or.inr (vir2phy_inTlb hk h.1 h.2 fun hf => absurd hf Bool.false_ne_true)

/-- The CPU has one mode. A run goes on in the same way from a state in which `UM` alone is
different, until MFC0 names Status: the same accesses, exceptions and effects of MTC0, TLBWI and
ERET. In any mode a load, a store or a fetch that takes no exception goes to a fixed segment, or
to the page of a valid entry of the TLB. -/
theorem one_mode (s : Cpu) (status : Word) (is : List CpuIn)
    (h : SameButUM status s.cp0.status_o) (hr : StepsMeet step StatusUnread s is) :
    (∃ status', SameButUM status' (runFrom step s is).cp0.status_o ∧
      runFrom step (s.withStatus status) is = (runFrom step s is).withStatus status') ∧
    ∀ t, t = runFrom step s is →
      (t.excepttype = .none → mem_ce_o t.ex_mem = true →
        t.ex_mem.mem_current_inst_addr ≠ ZeroWord → t.ex_mem.mem_mem_addr ≠ ZeroWord →
        InSegment t.ex_mem.mem_mem_addr t.data_req.cpu_addr_i ∨
          InTlb t.tlb t.ex_mem.mem_mem_addr (mem_we t.ex_mem) t.data_req.cpu_addr_i) ∧
      (t.mmu_is_tlbl_inst = false → t.pc ≠ ZeroWord → mem_we t.ex_mem = false →
        InSegment t.pc t.inst_req.cpu_addr_i ∨ InTlb t.tlb t.pc false t.inst_req.cpu_addr_i) :=
  ⟨run_withStatus is h hr, fun _ _ => ⟨data_reaches, inst_reaches⟩⟩

/-- `addiu $1, $0, 0x10`, `mtc0 $1` to STATUS, `lui $2, 0xA000` and `sw $0, 0($2)`, up to where
the store is in `mem`. -/
def userStoreRun : List CpuIn :=
  [.quiet, .quiet, .fetched 0x24010010#32, .quiet, .fetched 0x40816000#32, .quiet,
    .fetched 0x3C02A000#32, .quiet, .fetched 0xAC400000#32, .quiet, .fetched ZeroWord, .quiet]

/-- What a user mode would say of the instruction in `mem`. -/
def Isolated (s : Cpu) : Prop :=
  (mem_ce_o s.ex_mem = true → is_kseg0_kseg1 s.ex_mem.mem_mem_addr = true →
    s.excepttype = .adel ∨ s.excepttype = .ades) ∧
  (is_kseg0_kseg1 s.ex_mem.mem_current_inst_addr = true → s.excepttype = .adel) ∧
  (s.ex_mem.mem_aluop = .MTC0 ∨ s.ex_mem.mem_aluop = .TLBWI ∨ s.ex_mem.mem_aluop = .ERET →
    s.excepttype ≠ .none ∧ s.excepttype ≠ .eret)

theorem user_store_not_isolated :
    ¬ ∀ (regs : RegFile) (is : List CpuIn),
      UM (run regs is).cp0.status_o = true → EXL (run regs is).cp0.status_o = false →
        Isolated (run regs is) := by
  intro h
  have hs := (h (fun _ => ZeroWord) userStoreRun (by decide +kernel) (by decide +kernel)).1
    (by decide +kernel) (by decide +kernel)
  have hnone : (run (fun _ => ZeroWord) userStoreRun).excepttype = .none := by decide +kernel
  rw [hnone] at hs
  rcases hs with hs | hs
  · cases hs
  · cases hs

theorem sameButUM_flip (status : Word) : SameButUM (status ^^^ BitVec.twoPow 32 4) status := by
  intro k hk
  rw [BitVec.getLsbD_xor, BitVec.getLsbD_twoPow]
  simp [Ne.symm hk]

/-- The store goes out just so with the mode switched. -/
theorem one_mode_userStore :
    (((run (fun _ => ZeroWord) userStoreRun).withStatus
      ((run (fun _ => ZeroWord) userStoreRun).cp0.status_o ^^^ BitVec.twoPow 32 4)).step
        .quiet).dbus =
    ((run (fun _ => ZeroWord) userStoreRun).step .quiet).dbus := by
  have hr : StepsMeet step StatusUnread (run (fun _ => ZeroWord) userStoreRun) [.quiet] := by
    decide +kernel
  generalize run (fun _ => ZeroWord) userStoreRun = s at hr ⊢
  have hs := (one_mode s _ [.quiet] (sameButUM_flip s.cp0.status_o) hr).1
  obtain ⟨status', -, he⟩ := hs
  have hd := congrArg Cpu.dbus he
  exact hd

end Cpu

end nehcpu.cpu
