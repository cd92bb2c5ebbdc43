-- TLB exceptions: which address BADVADDR and ENTRYHI get, and which fetches `if_id`
-- marks as a miss. The data side and the fetch side of `mmu` share one address output,
-- and a store in `mem` masks the flag of the fetch.
import Nehcpu.Cpu.Invariant

namespace nehcpu.cpu

open machine

/-! ## Which exception is taken -/

/-- The exceptions that the TLB raises. -/
def Except.isTlb : Except → Bool
  | .tlblInst | .tlbMod | .tlblData | .tlbs => true
  | _ => false

section

variable {m : ExMem} {f : MmuFlags} {cause status : Word}

theorem flag_of_tlblInst (h : excepttype_o m f cause status = .tlblInst) :
    m.mem_excepttype.tlblInst = true := by
  unfold excepttype_o at h
  grind

/-- A data exception says that the fetch of the instruction has not failed. -/
theorem noFlag_of_data (h : (excepttype_o m f cause status).isTlb = true)
    (hne : excepttype_o m f cause status ≠ .tlblInst) : m.mem_excepttype.tlblInst = false := by
  unfold excepttype_o at h hne
  grind [Except.isTlb]

theorem flag_of_tlblData (h : excepttype_o m f cause status = .tlblData) :
    f.is_tlbl_data = true := by
  unfold excepttype_o at h
  grind

theorem flag_of_store (h : (excepttype_o m f cause status).isTlb = true)
    (hne : excepttype_o m f cause status ≠ .tlblInst)
    (hload : excepttype_o m f cause status ≠ .tlblData) :
    f.is_tlbs = true ∨ f.is_tlb_modify = true := by
  unfold excepttype_o at h hne hload
  grind [Except.isTlb]

end

/-! ## The address that fails -/

/-- The address that the instruction in `mem` could not translate: its own one for a fetch,
and for data the one that it loads from or stores to. -/
def failedAddr (m : ExMem) (e : Except) : Word :=
  if e = .tlblInst then m.mem_current_inst_addr else m.mem_mem_addr

/-- The edge writes the failed address to BADVADDR and its page to ENTRYHI. -/
def Identifies (s : Cpu) (i : CpuIn) : Prop :=
  (s.step i).cp0.badvaddr_o = failedAddr s.ex_mem s.excepttype ∧
    (s.step i).cp0.entryhi_o.extractLsb' 13 19 =
      (failedAddr s.ex_mem s.excepttype).extractLsb' 13 19

/-- The address in `pc` has no valid translation in this cycle. -/
def FetchMisses (s : Cpu) : Prop :=
  is_kseg0_kseg1 s.pc = false ∧ s.pc ≠ ZeroWord ∧
    (tlb_miss s.tlb s.pc = true ∨ s.inst_vir2phy.V = false)

instance (s : Cpu) : Decidable (FetchMisses s) := inferInstanceAs (Decidable (_ ∧ _))

variable {s : Cpu} {i : CpuIn}

theorem mmu_is_tlbl_inst_iff :
    s.mmu_is_tlbl_inst = true ↔ FetchMisses s ∧ mem_we s.ex_mem = false := by
  have hk : s.inst_vir2phy.is_kseg0_kseg1 = is_kseg0_kseg1 s.pc := rfl
  have hm : s.inst_vir2phy.tlb_miss = tlb_miss s.tlb s.pc := rfl
  unfold Cpu.mmu_is_tlbl_inst is_tlbl_inst FetchMisses
  rw [hk, hm]
  simp
  tauto

/-- A load has the flag of a data miss, a store one of the other two. -/
theorem mem_we_of_tlblData (h : s.excepttype = .tlblData) :
    mem_we s.ex_mem = false ∧ mem_addr_o s.ex_mem = s.ex_mem.mem_mem_addr := by
  have hf : s.mmu_flags.is_tlbl_data = true := flag_of_tlblData h
  simp only [Cpu.mmu_flags, is_tlbl_data, Bool.and_eq_true, bne_iff_ne, ne_eq,
    Bool.not_eq_true'] at hf
  obtain ⟨⟨⟨-, hne⟩, hwe⟩, -⟩ := hf
  refine ⟨hwe, ?_⟩
  unfold mem_addr_o at hne ⊢
  split
  · rfl
  · rename_i hce
    simp [hce] at hne

theorem mem_we_of_store (h : s.excepttype.isTlb = true) (hne : s.excepttype ≠ .tlblInst)
    (hload : s.excepttype ≠ .tlblData) :
    mem_we s.ex_mem = true ∧ mem_addr_o s.ex_mem = s.ex_mem.mem_mem_addr := by
  have hwe : mem_we s.ex_mem = true := by
    rcases flag_of_store h hne hload with hf | hf
    · simp only [Cpu.mmu_flags, is_tlbs, Bool.and_eq_true] at hf
      exact hf.1.2
    · simp only [Cpu.mmu_flags, is_tlb_modify, Bool.and_eq_true] at hf
      exact hf.1.2
  refine ⟨hwe, ?_⟩
  unfold mem_we at hwe
  simp [mem_addr_o, mem_ce_o, hwe]

/-- What the edge writes: the address that `mem` reports, and its page. -/
theorem written_of_tlb (h : s.excepttype.isTlb = true) :
    (s.step i).cp0.badvaddr_o = s.exc_info.badvaddr_i ∧
      (s.step i).cp0.entryhi_o.extractLsb' 13 19 = s.exc_info.badvaddr_i.extractLsb' 13 19 := by
  have hc : (s.step i).cp0 =
      ((s.cp0.tick i.int_i).write s.mem_wb.wb_cp0).except s.excepttype s.exc_info := rfl
  have hmask : ∀ k, k < 19 → VPN2_MASK.getLsbD (13 + k) = true := by decide
  rw [hc]
  cases he : s.excepttype with
  | tlblInst => exact ⟨rfl, extract_maskWrite _ _ _ 13 19 hmask⟩
  | tlbMod => exact ⟨rfl, extract_maskWrite _ _ _ 13 19 hmask⟩
  | tlblData => exact ⟨rfl, extract_maskWrite _ _ _ 13 19 hmask⟩
  | tlbs => exact ⟨rfl, extract_maskWrite _ _ _ 13 19 hmask⟩
  | _ =>
    rw [he] at h
    cases h

/-- BADVADDR tells the two addresses apart, so the page alone adds nothing. -/
theorem identifies_iff_reports (h : s.excepttype.isTlb = true) :
    Identifies s i ↔ s.exc_info.badvaddr_i = failedAddr s.ex_mem s.excepttype := by
  obtain ⟨hb, hv⟩ := written_of_tlb (i := i) h
  unfold Identifies
  rw [hb, hv]
  constructor
  · rintro ⟨h1, -⟩
    exact h1
  · intro h1
    rw [h1]
    exact ⟨rfl, rfl⟩

/-- A TLB exception identifies the access that failed, in every reachable state, if and only
if it is not a load miss in a cycle in which the fetch of another address misses too. -/
theorem badvaddr_iff (regs : RegFile) (is : List CpuIn) (i : CpuIn)
    (h : (Cpu.run regs is).excepttype.isTlb = true) :
    Identifies (Cpu.run regs is) i ↔
      ¬ ((Cpu.run regs is).excepttype = .tlblData ∧ FetchMisses (Cpu.run regs is) ∧
        (Cpu.run regs is).pc ≠ (Cpu.run regs is).ex_mem.mem_mem_addr) := by
  generalize Cpu.run regs is = s at h ⊢
  rw [identifies_iff_reports h]
  have hx : s.exc_info.badvaddr_i =
      mem_badvaddr_o s.ex_mem (mmu_badvaddr s.mmu_is_tlbl_inst s.pc (mem_addr_o s.ex_mem)) := rfl
  rw [hx]
  unfold failedAddr mem_badvaddr_o mmu_badvaddr
  by_cases hi : s.excepttype = .tlblInst
  · have hf : s.ex_mem.mem_excepttype.tlblInst = true := flag_of_tlblInst hi
    simp [hi, hf]
  · have hf : s.ex_mem.mem_excepttype.tlblInst = false := noFlag_of_data h hi
    by_cases hd : s.excepttype = .tlblData
    · obtain ⟨hwe, haddr⟩ := mem_we_of_tlblData hd
      by_cases hm : FetchMisses s
      · have hfetch : s.mmu_is_tlbl_inst = true := mmu_is_tlbl_inst_iff.2 ⟨hm, hwe⟩
        simp [hd, hf, hm, hfetch]
      · have hfetch : s.mmu_is_tlbl_inst = false := by
          rw [← Bool.not_eq_true, mmu_is_tlbl_inst_iff]
          exact fun hc => hm hc.1
        simp [hd, hf, hm, hfetch, haddr]
    · obtain ⟨hwe, haddr⟩ := mem_we_of_store h hi hd
      have hfetch : s.mmu_is_tlbl_inst = false := by
        rw [← Bool.not_eq_true, mmu_is_tlbl_inst_iff, hwe]
        exact fun hc => Bool.noConfusion hc.2
      simp [hi, hd, hf, hfetch, haddr]

/-- A load at a mapped address, up to the cycle in which `mem` takes its exception. -/
def loadMissRun : List CpuIn :=
  [.quiet, .quiet, .fetched 0x8C020004#32, .quiet, .fetched ZeroWord, .quiet]

theorem badvaddr_iff_loadMiss : Identifies (Cpu.run (fun _ => ZeroWord) loadMissRun) .quiet :=
  (badvaddr_iff _ loadMissRun .quiet (by decide +kernel)).2 (by decide +kernel)

/-- `addiu $1, $0, 0x2000`, `jr $1` and in its slot `lw $2, 4($0)`: the load and the fetches
after the jump miss, and the load comes to `mem` while `pc` is `0x2004`. -/
def jumpLoadRun : List CpuIn :=
  [.quiet, .quiet, .fetched 0x24012000#32, .quiet, .fetched 0x00200008#32, .quiet,
    .fetched 0x8C020004#32, .quiet, .fetched ZeroWord, .quiet]

theorem badvaddr_of_another_fetch :
    ¬ ∀ (regs : RegFile) (is : List CpuIn) (i : CpuIn),
      (Cpu.run regs is).excepttype.isTlb = true → Identifies (Cpu.run regs is) i := by
  intro h
  have hb := (h (fun _ => ZeroWord) jumpLoadRun .quiet (by decide +kernel)).1
  exact absurd hb (by decide +kernel)

/-! ## The mark of a fetch -/

/-- No valid entry of the TLB maps the page of an address in a mapped segment. -/
def Unmapped (tlb : Tlb) (va : Word) : Prop :=
  is_kseg0_kseg1 va = false ∧ ∀ j, vpn2 (tlb j) = vpn2Of va →
    validOf (tlb j) (getElem va 12 bit12_lt) = false

instance (tlb : Tlb) (va : Word) : Decidable (Unmapped tlb va) := inferInstanceAs (Decidable (_ ∧ _))

/-- The entry that the TLB takes for an address, the first that matches, is valid. -/
def Answered (tlb : Tlb) (va : Word) : Prop :=
  ∃ j, tlbIndices.find? (hit tlb va) = some j ∧ validOf (tlb j) (getElem va 12 bit12_lt) = true

instance (tlb : Tlb) (va : Word) : Decidable (Answered tlb va) :=
  inferInstanceAs (Decidable (∃ _, _ ∧ _))

/-- A fetch, from the cycle in which it asks the bus, over the cycles `ks`, to the cycle `i` in
which `if_id` takes the word over. -/
structure Fetch (s₀ : Cpu) (ks : List CpuIn) (i : CpuIn) : Prop where
  asks : s₀.ibus.wishbone_state = .WB_IDLE ∧ s₀.ce = true
  waits : StepsMeet Cpu.step
    (fun s k => s.flush = false ∧ getElem (s.stall k) 0 stall0_lt = true) s₀ ks
  hands : (runFrom Cpu.step s₀ ks).flush = false ∧ (runFrom Cpu.step s₀ ks).stall i = 0b000000#6

/-- What `if_id` takes over is marked exactly when the TLB of the fetch has no valid entry for
its own address, and is no instruction then. -/
def MarksFetch (s₀ : Cpu) (d : IfId) : Prop :=
  (d.is_inst_tlbl_o = true ↔ Unmapped s₀.tlb d.id_pc) ∧
    (Unmapped s₀.tlb d.id_pc → d.id_inst = ZeroWord)

/-- What the hardware looks at in the cycle of the handover says of the address what the TLB of
the fetch says: the first entry that matches is valid or not as it was, no store is in `mem`,
and the address is not zero. -/
def SeesFetch (s₀ s : Cpu) : Prop :=
  (Unmapped s₀.tlb s₀.pc → ¬ Answered s.tlb s₀.pc ∧ mem_we s.ex_mem = false ∧ s₀.pc ≠ ZeroWord) ∧
    (is_kseg0_kseg1 s₀.pc = false ∧ ¬ Unmapped s₀.tlb s₀.pc →
      Answered s.tlb s₀.pc ∨ mem_we s.ex_mem = true ∨ s₀.pc = ZeroWord)

instance (s₀ s : Cpu) : Decidable (SeesFetch s₀ s) := inferInstanceAs (Decidable (_ ∧ _))

/-- With no miss the answer is that of the first entry that matches. -/
theorem answered_iff (held : BitVec 4) (tlb : Tlb) (va : Word) :
    Answered tlb va ↔ tlb_miss tlb va = false ∧ (vir2phy held tlb va).V = true := by
  have hv : (vir2phy held tlb va).V = validOf (tlb (hit_index held tlb va)) va[12] := rfl
  unfold Answered
  rw [hv]
  constructor
  · rintro ⟨j, hj, hvalid⟩
    have hidx : hit_index held tlb va = j := by
      unfold hit_index
      rw [hj]
      rfl
    rw [hidx]
    refine ⟨?_, hvalid⟩
    rw [← Bool.not_eq_true, tlb_miss_iff]
    exact fun hmiss => hmiss j (eq_of_beq (List.find?_some (p := hit tlb va) hj))
  · rintro ⟨hmiss, hvalid⟩
    rcases hf : tlbIndices.find? (hit tlb va) with _ | j
    · rw [← Bool.not_eq_true, tlb_miss_iff] at hmiss
      refine absurd (fun j hj => ?_) hmiss
      exact List.find?_eq_none.1 hf j (mem_tlbIndices j) (beq_iff_eq.2 hj)
    · refine ⟨j, rfl, ?_⟩
      unfold hit_index at hvalid
      rw [hf] at hvalid
      exact hvalid

theorem fetchMisses_iff :
    FetchMisses s ↔ is_kseg0_kseg1 s.pc = false ∧ s.pc ≠ ZeroWord ∧ ¬ Answered s.tlb s.pc := by
  unfold FetchMisses
  rw [answered_iff s.held.inst_hit_index]
  have hv : s.inst_vir2phy.V = (vir2phy s.held.inst_hit_index s.tlb s.pc).V := rfl
  rw [hv]
  cases tlb_miss s.tlb s.pc <;> simp

/-- An answer is a valid entry, so what is answered is mapped. -/
theorem Answered.mapped {tlb : Tlb} {va : Word} (h : Answered tlb va) : ¬ Unmapped tlb va := by
  rintro ⟨-, hall⟩
  obtain ⟨j, hj, hvalid⟩ := h
  have hhit : vpn2 (tlb j) = vpn2Of va := eq_of_beq (List.find?_some (p := hit tlb va) hj)
  rw [hall j hhit] at hvalid
  cases hvalid

/-- With at most one entry for a page, what is mapped is answered. -/
theorem answered_of_unique {tlb : Tlb} {va : Word} (hseg : is_kseg0_kseg1 va = false)
    (hu : ∀ j k, vpn2 (tlb j) = vpn2Of va → vpn2 (tlb k) = vpn2Of va → j = k) :
    Answered tlb va ↔ ¬ Unmapped tlb va := by
  refine ⟨Answered.mapped, fun hmap => ?_⟩
  unfold Unmapped at hmap
  push Not at hmap
  obtain ⟨j, hj, hvalid⟩ := hmap hseg
  rcases hf : tlbIndices.find? (hit tlb va) with _ | k
  · exact absurd (beq_iff_eq.2 hj) (List.find?_eq_none.1 hf j (mem_tlbIndices j))
  · have hk : vpn2 (tlb k) = vpn2Of va := eq_of_beq (List.find?_some (p := hit tlb va) hf)
    refine ⟨k, hf, ?_⟩
    rw [hu k j hk hj]
    exact Bool.not_eq_false _ ▸ hvalid

/-- The address stays while the fetch waits. -/
theorem pc_of_waits (ks : List CpuIn) (s : Cpu) (hce : s.ce = true)
    (h : StepsMeet Cpu.step
      (fun s k => s.flush = false ∧ getElem (s.stall k) 0 stall0_lt = true) s ks) :
    (runFrom Cpu.step s ks).pc = s.pc := by
  induction ks generalizing s with
  | nil => rfl
  | cons k ks ih =>
    obtain ⟨⟨hf, hst⟩, hrest⟩ := h
    have hpc : (s.step k).pc = s.pc := by
      show s.next_pc k = s.pc
      unfold Cpu.next_pc
      simp [hce, hf, hst]
    rw [runFrom_cons, ih _ rfl hrest, hpc]

theorem if_id_of_hands {s : Cpu} (hf : s.flush = false) (hst : s.stall i = 0b000000#6) :
    (s.step i).if_id = s.if_out i :=
  congrArg Cpu.Stages.if_id (Cpu.stages_of_run hf hst)

/-- A bus that is busy, or that waits, has been so since the cycle in which it was asked. -/
theorem asked_of_busy (regs : RegFile) (is : List CpuIn)
    (h : (Cpu.run regs is).ibus.wishbone_state ≠ .WB_IDLE) :
    ∃ js ks, is = js ++ ks ∧
      ((Cpu.run regs js).ibus.wishbone_state = .WB_IDLE ∧ (Cpu.run regs js).ce = true) ∧
      StepsMeet Cpu.step (fun s k => s.flush = false ∧ getElem (s.stall k) 0 stall0_lt = true)
        (Cpu.run regs js) ks := by
  induction is using List.reverseRecOn with
  | nil => exact absurd rfl h
  | append_singleton is k ih =>
    have hrun : Cpu.run regs (is ++ [k]) = (Cpu.run regs is).step k := runFrom_snoc _ _ _ _
    rw [hrun] at h
    have hst : (Cpu.run regs is).stall k ≠ 0b000000#6 :=
      fun hst => h (buses_idle_of_noStall hst).1
    have hf : (Cpu.run regs is).flush = false := by
      rw [← Bool.not_eq_true]
      exact fun hf => hst (Cpu.stall_of_flush hf)
    have hbit : ((Cpu.run regs is).stall k)[0] = true := by
      rw [← Bool.not_eq_false]
      exact fun h0 => hst (Cpu.stall_pc_iff.1 h0)
    by_cases hidle : (Cpu.run regs is).ibus.wishbone_state = .WB_IDLE
    · refine ⟨is, [k], rfl, ⟨hidle, ?_⟩, ⟨hf, hbit⟩, trivial⟩
      by_contra hce
      rw [Bool.not_eq_true] at hce
      have hn : ((Cpu.run regs is).step k).ibus = (Cpu.run regs is).ibus :=
        WbBus.next_idle_quiet hidle (Or.inl hce)
      rw [hn] at h
      exact h hidle
    · obtain ⟨js, ks, hjs, hasks, hwaits⟩ := ih hidle
      refine ⟨js, ks ++ [k], by rw [hjs, List.append_assoc], hasks, ?_⟩
      have hend : runFrom Cpu.step (Cpu.run regs js) ks = Cpu.run regs is := by
        rw [hjs]
        exact (runFrom_append _ _ _ _).symm
      rw [stepsMeet_append, hend]
      exact ⟨hwaits, ⟨hf, hbit⟩, trivial⟩

/-- Every word that `if_id` takes over once the CPU runs is the end of a fetch. -/
theorem fetch_of_hands (regs : RegFile) (is : List CpuIn) (i : CpuIn)
    (hce : (Cpu.run regs is).ce = true) (hf : (Cpu.run regs is).flush = false)
    (hst : (Cpu.run regs is).stall i = 0b000000#6) :
    ∃ js ks, is = js ++ ks ∧ Fetch (Cpu.run regs js) ks i := by
  have hbusy : (Cpu.run regs is).ibus.wishbone_state ≠ .WB_IDLE := by
    intro hidle
    have hq := ((Cpu.stall_eq_zero_iff hf).1 hst).2.2
    simp [Cpu.stallreq_from_if, WbBus.stallreq, hidle, hf, hce] at hq
  obtain ⟨js, ks, hjs, hasks, hwaits⟩ := asked_of_busy regs is hbusy
  have hend : runFrom Cpu.step (Cpu.run regs js) ks = Cpu.run regs is := by
    rw [hjs]
    exact (runFrom_append _ _ _ _).symm
  exact ⟨js, ks, hjs, hasks, hwaits, by rw [hend]; exact ⟨hf, hst⟩⟩

/-- A fetch is marked right, in every run and however long it and the stages behind it wait, if
and only if the handover sees what the fetch saw. -/
theorem fetch_mark_iff (regs : RegFile) (js ks : List CpuIn) (i : CpuIn)
    (h : Fetch (Cpu.run regs js) ks i) :
    MarksFetch (Cpu.run regs js) (Cpu.run regs (js ++ ks ++ [i])).if_id ↔
      SeesFetch (Cpu.run regs js) (Cpu.run regs (js ++ ks)) := by
  have hs : Cpu.run regs (js ++ ks) = runFrom Cpu.step (Cpu.run regs js) ks :=
    runFrom_append _ _ _ _
  have hnext : Cpu.run regs (js ++ ks ++ [i]) = (Cpu.run regs (js ++ ks)).step i :=
    runFrom_snoc _ _ _ _
  have hpc : (Cpu.run regs (js ++ ks)).pc = (Cpu.run regs js).pc := by
    rw [hs]
    exact pc_of_waits ks _ h.asks.2 h.waits
  obtain ⟨hf, hst⟩ := h.hands
  rw [← hs] at hf hst
  rw [hnext, if_id_of_hands hf hst]
  generalize Cpu.run regs (js ++ ks) = s at hpc
  generalize Cpu.run regs js = s₀ at hpc
  have hd : (s.if_out i).id_pc = s₀.pc := hpc
  have hmark : (s.if_out i).is_inst_tlbl_o = true ↔
      is_kseg0_kseg1 s₀.pc = false ∧ s₀.pc ≠ ZeroWord ∧ ¬ Answered s.tlb s₀.pc ∧
        mem_we s.ex_mem = false := by
    have hm : (s.if_out i).is_inst_tlbl_o = s.mmu_is_tlbl_inst := rfl
    rw [hm, mmu_is_tlbl_inst_iff, fetchMisses_iff, hpc]
    tauto
  have hword : (s.if_out i).is_inst_tlbl_o = true → (s.if_out i).id_inst = ZeroWord :=
    fun hm => if_pos hm
  unfold MarksFetch SeesFetch
  rw [hd]
  constructor
  · rintro ⟨hiff, -⟩
    constructor
    · intro hun
      obtain ⟨-, hne, hans, hwe⟩ := hmark.1 (hiff.2 hun)
      exact ⟨hans, hwe, hne⟩
    · rintro ⟨hseg, hun⟩
      have hoff := fun hm => hun (hiff.1 (hmark.2 hm))
      rw [← Bool.not_eq_false]
      tauto
  · rintro ⟨hin, hout⟩
    have hiff : (s.if_out i).is_inst_tlbl_o = true ↔ Unmapped s₀.tlb s₀.pc := by
      rw [hmark]
      constructor
      · rintro ⟨hseg, hne, hans, hwe⟩
        by_contra hun
        rcases hout ⟨hseg, hun⟩ with hx | hx | hx
        · exact hans hx
        · rw [hwe] at hx
          cases hx
        · exact hne hx
      · intro hun
        obtain ⟨hans, hwe, hne⟩ := hin hun
        exact ⟨hun.1, hne, hans, hwe⟩
    exact ⟨hiff, fun hun => hword (hiff.2 hun)⟩

/-- `addiu $1, $0, 0x2000`, `jr $1` and its slot, up to the fetch of an unmapped page. -/
def jumpRun : List CpuIn :=
  [.quiet, .quiet, .fetched 0x24012000#32, .quiet, .fetched 0x00200008#32, .quiet,
    .fetched ZeroWord]

theorem fetch_mark_iff_jump :
    MarksFetch (Cpu.run (fun _ => ZeroWord) jumpRun)
      (Cpu.run (fun _ => ZeroWord) (jumpRun ++ [.quiet] ++ [.fetched 0x24020007#32])).if_id :=
  (fetch_mark_iff _ jumpRun [.quiet] (.fetched 0x24020007#32)
    ⟨by decide +kernel, by decide +kernel, by decide +kernel⟩).2 (by decide +kernel)

/-- A jump to the last words of the fixed segments, `sw $0, 0($1)` and one more instruction
there, up to the fetch of the unmapped page that follows. -/
def lastWordsRun : List CpuIn :=
  [.quiet, .quiet, .fetched 0x3C01BFFF#32, .quiet, .fetched 0x3421FFF8#32, .quiet,
    .fetched 0x00200008#32, .quiet, .fetched ZeroWord, .quiet, .fetched 0xAC200000#32, .quiet,
    .fetched ZeroWord]

/-- The store is still in `mem` when the bus answers both. -/
theorem store_hides_a_fetch :
    ¬ ∀ (regs : RegFile) (js ks : List CpuIn) (i : CpuIn), Fetch (Cpu.run regs js) ks i →
      MarksFetch (Cpu.run regs js) (Cpu.run regs (js ++ ks ++ [i])).if_id := by
  intro h
  have hm := h (fun _ => ZeroWord) lastWordsRun [.quiet, .quiet]
    ⟨0x00#8, ⟨0x24020007#32, true⟩, ⟨ZeroWord, true⟩⟩
    ⟨by decide +kernel, by decide +kernel, by decide +kernel⟩
  have hword := hm.2 (by decide +kernel)
  exact absurd hword (by decide +kernel)

end nehcpu.cpu
