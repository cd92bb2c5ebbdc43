-- Delay slots. The mark that a jump leaves for its slot waits in `id_ex` for the next
-- instruction, through any number of bubbles. `Order` keeps account of the program
-- order beside the pipeline: which instructions have left `id` since the last flush,
-- and which of them are in `ex` and in `mem`.
import Nehcpu.Cpu.Invariant

namespace nehcpu.cpu

open machine

/-! ## Program order -/

/-- An instruction that has left `id`, with the operands that it had there. -/
structure Issued where
  pc : Word
  inst : Word
  reg1 : Word
  reg2 : Word
deriving DecidableEq, Repr

namespace Issued

/-- A jump, or a branch whose condition holds. -/
def taken (x : Issued) : Bool := (branch x.inst x.pc x.reg1 x.reg2).branch_flag_o

def target (x : Issued) : Word := (branch x.inst x.pc x.reg1 x.reg2).branch_target_addr_o

end Issued

/-- A branch or a jump, taken or not. -/
def isBranch (inst : Word) : Bool :=
  op inst ∈ [EXE_J, EXE_JAL, EXE_BEQ, EXE_BNE, EXE_BLEZ, EXE_BGTZ] ||
    (op inst = EXE_SPECIAL_INST && op2 inst = 0b00000#5 && op3 inst ∈ [EXE_JR, EXE_JALR]) ||
    (op inst = EXE_REGIMM_INST && op4 inst ∈ [EXE_BGEZ, EXE_BLTZ])

theorem branch_of_no_branch {inst : Word} (h : isBranch inst = false) (pc a b : Word) :
    branch inst pc a b = .no := by
  simp only [isBranch, Bool.or_eq_false_iff, decide_eq_false_iff_not, List.mem_cons,
    List.not_mem_nil, or_false, not_or, Bool.and_eq_false_iff] at h
  unfold branch
  grind

theorem Issued.isBranch_of_taken {x : Issued} (h : x.taken = true) : isBranch x.inst = true := by
  by_contra hb
  rw [Bool.not_eq_true] at hb
  unfold Issued.taken at h
  rw [branch_of_no_branch hb] at h
  cases h

/-- Whether what comes after these instructions, the newest first, is in the slot of a jump or
of a taken branch. -/
def inSlot : List Issued → Bool
  | [] => false
  | b :: _ => b.taken

/-- What comes after the instruction at `pc`, which these come before. -/
def nextAddr (pc : Word) : List Issued → Word
  | [] => pc + 4#32
  | b :: _ => if b.taken then b.target else pc + 4#32

/-- Each instruction is where the ones before it lead. -/
def InOrder : List Issued → Prop
  | x :: y :: l => x.pc = nextAddr y.pc l ∧ InOrder (y :: l)
  | _ => True

/-- The program order up to the instruction that left `id` last, up to the one in `ex` and up to
the one in `mem`, the newest first and from the last flush on. A bubble has none. -/
structure Order where
  /-- `if_id` holds an instruction, not what a flush or the reset leaves -/
  fetched : Bool
  issued : List Issued
  ex : List Issued
  mem : List Issued

def Order.start : Order := ⟨false, [], [], []⟩

/-- The instruction in `id`, as it leaves. -/
def Cpu.leaving (s : Cpu) (i : CpuIn) : Issued :=
  ⟨s.if_id.id_pc, s.if_id.id_inst, s.reg1_o i, s.reg2_o i⟩

def Order.issue (o : Order) (s : Cpu) (i : CpuIn) : List Issued :=
  if o.fetched then s.leaving i :: o.issued else []

/-- The edge moves the accounts as it moves the stages. -/
def Order.next (o : Order) (s : Cpu) (i : CpuIn) : Order where
  fetched := Cpu.latch s.flush (getElem (s.stall i) 1 stall1_lt) (getElem (s.stall i) 2 stall2_lt)
    false false s.ce o.fetched
  issued := Cpu.latch s.flush (getElem (s.stall i) 2 stall2_lt) (getElem (s.stall i) 3 stall3_lt)
    [] o.issued (o.issue s i) o.issued
  ex := Cpu.latch s.flush (getElem (s.stall i) 2 stall2_lt) (getElem (s.stall i) 3 stall3_lt)
    [] [] (o.issue s i) o.ex
  mem := Cpu.latch s.flush (getElem (s.stall i) 3 stall3_lt) (getElem (s.stall i) 4 stall4_lt)
    [] [] o.ex o.mem

def follow (t : Cpu × Order) (i : CpuIn) : Cpu × Order := (t.1.step i, t.2.next t.1 i)

/-- The accounts after a run from reset. -/
def Order.run (regs : RegFile) (is : List CpuIn) : Order :=
  (runFrom follow (Cpu.reset regs, .start) is).2

theorem follow_cpu (is : List CpuIn) (s : Cpu) (o : Order) :
    (runFrom follow (s, o) is).1 = runFrom Cpu.step s is := by
  induction is generalizing s o with
  | nil => rfl
  | cons i is ih => exact ih _ _

section

variable {s : Cpu} {i : CpuIn} (o : Order)

theorem Order.next_of_flush (hf : s.flush = true) : o.next s i = .start := by
  simp only [Order.next, hf, Cpu.latch_flush, Order.start]

theorem Order.next_of_memStall (hf : s.flush = false) (hm : s.stallreq_from_mem i = true) :
    o.next s i = o := by
  simp [Order.next, hf, Cpu.stall_of_memStall hf hm]

theorem Order.next_of_hold (hf : s.flush = false) (hst : s.stall i = 0b000111#6) :
    o.next s i = ⟨o.fetched, o.issued, [], o.ex⟩ := by
  simp [Order.next, hf, hst]

theorem Order.next_of_run (hf : s.flush = false) (hst : s.stall i = 0b000000#6) :
    o.next s i = ⟨s.ce, o.issue s i, o.issue s i, o.ex⟩ := by
  simp [Order.next, hf, hst]

end

/-! ## What the accounts and the stages have in common -/

/-- No MTC0 has come to STATUS yet, and none is in write back: no interrupt is enabled. -/
def Unwritten (s : Cpu) : Prop :=
  s.cp0.status_o = Cp0.reset.status_o ∧ s.mem_wb.wb_cp0 = .off

/-- The stage with address `pc` and delay slot mark `slot` holds the newest of these. -/
def Holds (pc : Word) (slot : Bool) (l : List Issued) : Prop :=
  ∀ x before, l = x :: before → pc = x.pc ∧ slot = inSlot before ∧ InOrder l

/-- The word that the reset leaves for `id` is not fetched, but has an address. It is gone before
the first instruction comes to `ex`. -/
structure Tracks (s : Cpu) (o : Order) : Prop where
  start : s.ce = false → (Unwritten s ∧ s.ex_mem.mem_cp0 = .off ∧ ex_cp0 s.id_ex = .off) ∧
    s.mmu_is_tlbl_inst = false ∧ ∀ i, s.inst_data i = ZeroWord
  running : o.fetched = true → s.ce = true
  fresh : o.fetched = false → o.issued = [] ∧ s.if_id.id_inst = ZeroWord
  /-- the mark that waits in `id_ex` is for the instruction in `id` -/
  mark : s.id_ex.is_in_delayslot_o = inSlot o.issued
  sorted : InOrder o.issued
  here : ∀ y l, o.issued = y :: l → s.if_id.id_pc = nextAddr y.pc l
  ahead : o.fetched = true → s.pc = nextAddr s.if_id.id_pc o.issued
  ex : Holds s.id_ex.ex_current_inst_addr s.id_ex.ex_is_in_delayslot o.ex
  mem : Holds s.ex_mem.mem_current_inst_addr s.ex_mem.mem_is_in_delayslot o.mem
  no_id : o.fetched = false → s.if_id.id_pc = ZeroWord ∨
    (Unwritten s ∧ s.ex_mem.mem_cp0 = .off ∧ ex_cp0 s.id_ex = .off) ∧
      s.if_id.is_inst_tlbl_o = false
  no_ex : o.ex = [] → s.id_ex.ex_current_inst_addr = ZeroWord ∨
    (Unwritten s ∧ s.ex_mem.mem_cp0 = .off) ∧
      s.id_ex.ex_aluop = .SLL ∧ s.id_ex.ex_excepttype = .clear
  no_mem : o.mem = [] → s.ex_mem.mem_current_inst_addr = ZeroWord ∨
    Unwritten s ∧ s.ex_mem.mem_aluop = .SLL ∧ s.ex_mem.mem_excepttype = .clear

theorem holds_nil (pc : Word) (slot : Bool) : Holds pc slot [] := nofun

theorem tracks_start (regs : RegFile) : Tracks (Cpu.reset regs) .start :=
  have hmark : (Cpu.reset regs).mmu_is_tlbl_inst = false := by
    simp [Cpu.mmu_is_tlbl_inst, is_tlbl_inst, Cpu.inst_vir2phy, vir2phy, Cpu.reset,
      is_kseg0_kseg1]
  ⟨fun _ => ⟨⟨⟨rfl, rfl⟩, rfl, rfl⟩, hmark, fun _ => rfl⟩, nofun, fun _ => ⟨rfl, rfl⟩, rfl, trivial, nofun, nofun, holds_nil _ _, holds_nil _ _,
    fun _ => Or.inl rfl, fun _ => Or.inl rfl, fun _ => Or.inl rfl⟩

variable {s : Cpu} {o : Order} {i : CpuIn}

/-- With nothing in write back and no flush STATUS stays. -/
theorem unwritten_step (h : Unwritten s) (hf : s.flush = false)
    (hwb : (s.step i).mem_wb.wb_cp0 = .off) : Unwritten (s.step i) := by
  have hn : s.excepttype = .none := by simpa [Cpu.flush] using hf
  have hc : (s.step i).cp0 = s.cp0.next i.int_i s.mem_wb.wb_cp0 s.excepttype s.exc_info := rfl
  refine ⟨?_, hwb⟩
  rw [hc, hn, h.2]
  exact h.1

theorem excepttype_of_SLL {x : IdEx} (h : x.ex_aluop = .SLL ∧ x.ex_excepttype = .clear) :
    ex_excepttype_o x = .clear := by
  simp [ex_excepttype_o, is_ADES, is_ADEL, h.1, h.2, ExcFlags.clear]

theorem tracks_of_flush (hf : s.flush = true) : Tracks (s.step i) (o.next s i) := by
  have hs := Cpu.stages_of_flush (i := i) hf
  have hid : (s.step i).if_id = .clear := congrArg Cpu.Stages.if_id hs
  have hex : (s.step i).id_ex = .clear := congrArg Cpu.Stages.id_ex hs
  have hmem : (s.step i).ex_mem = .clear := congrArg Cpu.Stages.ex_mem hs
  rw [o.next_of_flush hf]
  refine ⟨nofun, nofun, fun _ => ⟨rfl, by rw [hid]; rfl⟩, by rw [hex]; rfl, trivial, nofun, nofun,
    holds_nil _ _, holds_nil _ _, fun _ => Or.inl ?_, fun _ => Or.inl ?_, fun _ => Or.inl ?_⟩
  · rw [hid]
    rfl
  · rw [hex]
    rfl
  · rw [hmem]
    rfl

/-- While the PC stops it keeps its address. -/
theorem pc_of_stall (hce : s.ce = true) (hf : s.flush = false)
    (hst : getElem (s.stall i) 0 stall0_lt = true) :
    (s.step i).pc = s.pc := by
  show s.next_pc i = s.pc
  unfold Cpu.next_pc
  simp [hce, hf, hst]

theorem tracks_of_memStall (h : Tracks s o) (hf : s.flush = false)
    (hm : s.stallreq_from_mem i = true) : Tracks (s.step i) (o.next s i) := by
  have hs := Cpu.stages_of_memStall hf hm
  have hid : (s.step i).if_id = s.if_id := congrArg Cpu.Stages.if_id hs
  have hex : (s.step i).id_ex = s.id_ex := congrArg Cpu.Stages.id_ex hs
  have hmem : (s.step i).ex_mem = s.ex_mem := congrArg Cpu.Stages.ex_mem hs
  have hwb : (s.step i).mem_wb.wb_cp0 = .off :=
    congrArg MemWb.wb_cp0 (congrArg Cpu.Stages.mem_wb hs)
  have hquiet : Unwritten s → Unwritten (s.step i) := fun hu => unwritten_step hu hf hwb
  rw [o.next_of_memStall hf hm]
  refine ⟨nofun, fun _ => rfl, fun hq => ?_, ?_, h.sorted, fun y l hl => ?_, fun hq => ?_, ?_, ?_,
    fun hq => ?_, fun hq => ?_, fun hq => ?_⟩
  · rw [hid]
    exact h.fresh hq
  · rw [hex]
    exact h.mark
  · rw [hid]
    exact h.here y l hl
  · rw [hid, pc_of_stall (h.running hq) hf (by rw [Cpu.stall_of_memStall hf hm]; rfl)]
    exact h.ahead hq
  · rw [hex]
    exact h.ex
  · rw [hmem]
    exact h.mem
  · rw [hid, hmem, hex]
    exact (h.no_id hq).imp_right fun hu => ⟨⟨hquiet hu.1.1, hu.1.2⟩, hu.2⟩
  · rw [hex, hmem]
    exact (h.no_ex hq).imp_right fun hu => ⟨⟨hquiet hu.1.1, hu.1.2⟩, hu.2⟩
  · rw [hmem]
    exact (h.no_mem hq).imp_right fun hu => ⟨hquiet hu.1, hu.2⟩

theorem tracks_of_hold (h : Tracks s o) (hf : s.flush = false)
    (hm : s.stallreq_from_mem i = false)
    (hq : s.stallreq_from_id i = true ∨ s.stallreq_from_if i = true) :
    Tracks (s.step i) (o.next s i) := by
  obtain ⟨hst, hs⟩ := Cpu.stages_of_hold hf hm hq
  have hid : (s.step i).if_id = s.if_id := congrArg Cpu.Stages.if_id hs
  have hex : (s.step i).id_ex = s.id_ex.bubble := congrArg Cpu.Stages.id_ex hs
  have hmem : (s.step i).ex_mem = s.ex_out i := congrArg Cpu.Stages.ex_mem hs
  have hwb : (s.step i).mem_wb.wb_cp0 = s.ex_mem.mem_cp0 :=
    congrArg MemWb.wb_cp0 (congrArg Cpu.Stages.mem_wb hs)
  have hquiet : Unwritten s ∧ s.ex_mem.mem_cp0 = .off → Unwritten (s.step i) :=
    fun hu => unwritten_step hu.1 hf (hwb.trans hu.2)
  rw [o.next_of_hold hf hst]
  refine ⟨nofun, fun _ => rfl, fun hq => ?_, ?_, h.sorted, fun y l hl => ?_, fun hq => ?_,
    holds_nil _ _, ?_, fun hq => ?_, fun _ => Or.inl ?_, fun hq => ?_⟩
  · rw [hid]
    exact h.fresh hq
  · rw [hex]
    exact h.mark
  · rw [hid]
    exact h.here y l hl
  · rw [hid, pc_of_stall (h.running hq) hf (by rw [hst]; rfl)]
    exact h.ahead hq
  · rw [hmem]
    exact h.ex
  · rw [hid, hmem, hex]
    exact (h.no_id hq).imp_right fun ⟨⟨hu, hm, hx⟩, ht⟩ => ⟨⟨hquiet ⟨hu, hm⟩, hx, rfl⟩, ht⟩
  · rw [hex]
    rfl
  · rw [hmem]
    exact (h.no_ex hq).imp_right fun hu => ⟨hquiet hu.1, hu.2.1, excepttype_of_SLL hu.2⟩

/-! ## The edge at which `id` hands over -/

/-- What the source sets together: a branch that is not taken leaves no mark. -/
theorem branch_marks (inst pc a b : Word) :
    (branch inst pc a b).next_inst_in_delayslot_o = (branch inst pc a b).branch_flag_o := by
  have hif : ∀ c, (branchIf c inst pc).next_inst_in_delayslot_o =
      (branchIf c inst pc).branch_flag_o := by
    intro c
    cases c <;> rfl
  unfold branch
  repeat' split
  all_goals first | rfl | exact hif _

theorem leaving_taken : (s.leaving i).taken = (s.id_branch i).branch_flag_o := rfl

theorem issue_nil_iff : o.issue s i = [] ↔ o.fetched = false := by
  unfold Order.issue
  cases o.fetched <;> simp

/-- What leaves `id` leaves its mark, or none when nothing was fetched. -/
theorem Tracks.flag (h : Tracks s o) : (s.id_branch i).branch_flag_o = inSlot (o.issue s i) := by
  cases hq : o.fetched with
  | true =>
    simp only [Order.issue, hq, ↓reduceIte, inSlot]
    rfl
  | false =>
    have hinst := (h.fresh hq).2
    simp only [Order.issue, hq, Bool.false_eq_true, ↓reduceIte, inSlot, Cpu.id_branch, hinst]
    rfl

theorem Tracks.next_pc (h : Tracks s o) (hce : s.ce = true) (hf : s.flush = false)
    (hst : s.stall i = 0b000000#6) : s.next_pc i = nextAddr s.pc (o.issue s i) := by
  have hflag := h.flag (i := i)
  unfold Cpu.next_pc
  rw [hflag]
  cases hq : o.fetched with
  | true =>
    have ht : (s.id_branch i).branch_target_addr_o = (s.leaving i).target := rfl
    simp [hce, hf, hst, Order.issue, hq, inSlot, nextAddr, ht]
  | false => simp [hce, hf, hst, Order.issue, hq, inSlot, nextAddr]

theorem Tracks.issue_sorted (h : Tracks s o) : InOrder (o.issue s i) := by
  unfold Order.issue
  split
  · cases hl : o.issued with
    | nil => trivial
    | cons y l => exact ⟨h.here y l hl, hl ▸ h.sorted⟩
  · trivial

theorem Tracks.issue_holds (h : Tracks s o) :
    Holds (s.id_out i).ex_current_inst_addr (s.id_out i).ex_is_in_delayslot (o.issue s i) := by
  intro x before hl
  have hsorted := h.issue_sorted (i := i)
  refine ⟨?_, ?_, hsorted⟩
  · unfold Order.issue at hl
    split at hl
    · obtain ⟨rfl, rfl⟩ := List.cons.inj hl
      rfl
    · cases hl
  · unfold Order.issue at hl
    split at hl
    · obtain ⟨rfl, rfl⟩ := List.cons.inj hl
      exact h.mark
    · cases hl

theorem tracks_of_run (h : Tracks s o) (hf : s.flush = false) (hst : s.stall i = 0b000000#6) :
    Tracks (s.step i) (o.next s i) := by
  have hs := Cpu.stages_of_run hf hst
  have hid : (s.step i).if_id = s.if_out i := congrArg Cpu.Stages.if_id hs
  have hex : (s.step i).id_ex = s.id_out i := congrArg Cpu.Stages.id_ex hs
  have hmem : (s.step i).ex_mem = s.ex_out i := congrArg Cpu.Stages.ex_mem hs
  have hwb : (s.step i).mem_wb.wb_cp0 = s.ex_mem.mem_cp0 :=
    congrArg MemWb.wb_cp0 (congrArg Cpu.Stages.mem_wb hs)
  have hquiet : Unwritten s ∧ s.ex_mem.mem_cp0 = .off → Unwritten (s.step i) :=
    fun hu => unwritten_step hu.1 hf (hwb.trans hu.2)
  -- before the first fetch nothing is fetched yet
  have hfirst : s.ce = false → o.fetched = false := by
    intro hce
    rw [← Bool.not_eq_true]
    intro hq
    rw [h.running hq] at hce
    cases hce
  rw [o.next_of_run hf hst]
  refine ⟨nofun, fun _ => rfl, fun hce => ⟨issue_nil_iff.2 (hfirst hce), ?_⟩, ?_, h.issue_sorted,
    fun y l hl => ?_, fun hce => ?_, ?_, ?_, fun hce => Or.inr ?_, fun hl => ?_, fun hl => ?_⟩
  · rw [hid]
    show (if s.mmu_is_tlbl_inst = true then ZeroWord else s.inst_data i) = ZeroWord
    rw [(h.start hce).2.2 i, ite_self]
  · rw [hex]
    exact (branch_marks _ _ _ _).trans h.flag
  · rw [hid]
    unfold Order.issue at hl
    split at hl
    · rename_i hq
      obtain ⟨rfl, rfl⟩ := List.cons.inj hl
      exact h.ahead hq
    · cases hl
  · rw [hid]
    exact h.next_pc hce hf hst
  · rw [hex]
    exact h.issue_holds
  · rw [hmem]
    exact h.ex
  · obtain ⟨⟨hu, hm, hx⟩, ht, -⟩ := h.start hce
    rw [hmem, hex, hid]
    refine ⟨⟨hquiet ⟨hu, hm⟩, hx, ?_⟩, ht⟩
    show ex_cp0 (idOut s.if_id.id_inst _ _ _ _ _) = .off
    rw [(h.fresh (hfirst hce)).2]
    rfl
  · rw [hex, hmem]
    have hfresh := issue_nil_iff.1 hl
    refine (h.no_id hfresh).imp_right fun ⟨⟨hu, hm, hx⟩, ht⟩ => ⟨⟨hquiet ⟨hu, hm⟩, hx⟩, ?_⟩
    show (idOut s.if_id.id_inst _ _ _ _ s.if_id.is_inst_tlbl_o).ex_aluop = .SLL ∧
      (idOut s.if_id.id_inst _ _ _ _ s.if_id.is_inst_tlbl_o).ex_excepttype = .clear
    rw [(h.fresh hfresh).2, ht]
    exact ⟨rfl, rfl⟩
  · rw [hmem]
    exact (h.no_ex hl).imp_right fun hu => ⟨hquiet hu.1, hu.2.1, excepttype_of_SLL hu.2⟩

theorem tracks_step (t : Cpu × Order) (i : CpuIn) (h : Tracks t.1 t.2) :
    Tracks (follow t i).1 (follow t i).2 := by
  rcases edge_cases t.1 i with hf | ⟨hf, hm⟩ | ⟨hf, hm, hq⟩ | ⟨hf, hst⟩
  · exact tracks_of_flush hf
  · exact tracks_of_memStall h hf hm
  · exact tracks_of_hold h hf hm hq
  · exact tracks_of_run h hf hst

theorem tracks_run (regs : RegFile) (is : List CpuIn) :
    Tracks (Cpu.run regs is) (Order.run regs is) := by
  have ht : Tracks (runFrom follow (Cpu.reset regs, .start) is).1
      (runFrom follow (Cpu.reset regs, .start) is).2 :=
    invariant_of_anyRun tracks_step is (tracks_start regs)
  rwa [follow_cpu] at ht

/-! ## Exception entry -/

/-- The exception goes back to the branch before the instruction. -/
def SaysBranch (c : Cp0) (b : Issued) : Prop :=
  getElem c.cause_o 31 bit31_lt = true ∧ c.epc_o = b.pc

/-- The exception goes back to the instruction. -/
def SaysSelf (c : Cp0) (x : Issued) : Prop := getElem c.cause_o 31 bit31_lt = false ∧ c.epc_o = x.pc

/-- What every branch, taken or not, asks for. -/
def NamesBranch (c : Cp0) (x : Issued) : List Issued → Prop
  | [] => SaysSelf c x
  | b :: _ => if isBranch b.inst then SaysBranch c b else SaysSelf c x

/-- What the entry does: only a jump or a taken branch counts, and it is looked for one word
before its slot, where it stands unless it is in a slot itself. -/
def NamesRestart (c : Cp0) (x : Issued) : List Issued → Prop
  | [] => SaysSelf c x
  | b :: before =>
    if b.taken then
      isBranch b.inst = true ∧ getElem c.cause_o 31 bit31_lt = true ∧ c.epc_o = x.pc - 4#32 ∧
        (inSlot before = false → SaysBranch c b)
    else SaysSelf c x

theorem entry_of_except (c : Cp0) (e : Except) (x : ExcInfo) (h1 : e ≠ .none) (h2 : e ≠ .eret) :
    getElem (c.except e x).cause_o 31 bit31_lt = x.is_in_delayslot_i ∧
      (c.except e x).epc_o =
        if x.is_in_delayslot_i then x.current_inst_addr_i - 4#32 else x.current_inst_addr_i := by
  have hbit : ∀ code, (c.enter x code).cause_o[31] = x.is_in_delayslot_i := by
    intro code
    rw [← BitVec.getLsbD_eq_getElem]
    unfold Cp0.enter
    simp only [getLsbD_maskWrite]
    cases x.is_in_delayslot_i <;> rfl
  cases e with
  | none => exact absurd rfl h1
  | eret => exact absurd rfl h2
  | _ => exact ⟨hbit _, rfl⟩

/-- A bubble takes no exception. -/
theorem Tracks.mem_ne_nil (h : Tracks s o) (he : s.excepttype ≠ .none) : o.mem ≠ [] := by
  intro hl
  apply he
  rcases h.no_mem hl with haddr | ⟨⟨hstatus, hwb⟩, hop, hflags⟩
  · exact if_neg fun hne => hne haddr
  · have hi : interruptTaken (mem_cp0_cause s.held.mem s.cp0 s.mem_wb.wb_cp0)
        (mem_cp0_status s.cp0 s.mem_wb.wb_cp0) = false := by
      rw [hwb]
      simp [interruptTaken, mem_cp0_status, cp0Latest, Cp0Write.off, hstatus, Cp0.reset]
    have hf : s.mmu_flags.is_tlbl_data = false ∧ s.mmu_flags.is_tlbs = false ∧
        s.mmu_flags.is_tlb_modify = false := by
      simp [Cpu.mmu_flags, is_tlbl_data, is_tlbs, is_tlb_modify, mem_addr_o, mem_ce_o, is_load,
        is_store, mem_we, hop]
    unfold Cpu.excepttype excepttype_o
    simp [hi, hf, hflags, ExcFlags.clear]

/-- What follows a branch that is in no slot is one word after it. -/
theorem slot_follows {x b : Issued} {before : List Issued} (h : InOrder (x :: b :: before))
    (hb : inSlot before = false) : x.pc = b.pc + 4#32 := by
  rw [h.1]
  cases before with
  | nil => rfl
  | cons a before =>
    have ha : a.taken = false := hb
    simp [nextAddr, ha]

/-- In every run, whatever stalls, bubbles and flushes come before, an exception is taken by an
instruction of the program order, and names where that order is to be taken up again. -/
theorem exception_names_restart (regs : RegFile) (is : List CpuIn) (i : CpuIn)
    (h1 : (Cpu.run regs is).excepttype ≠ .none) (h2 : (Cpu.run regs is).excepttype ≠ .eret) :
    ∃ x before, (Order.run regs is).mem = x :: before ∧
      (Cpu.run regs is).ex_mem.mem_current_inst_addr = x.pc ∧ InOrder (x :: before) ∧
      NamesRestart ((Cpu.run regs is).step i).cp0 x before := by
  have ht := tracks_run regs is
  generalize Cpu.run regs is = s at h1 h2 ht ⊢
  generalize Order.run regs is = o at ht ⊢
  obtain ⟨x, before, hl⟩ := List.exists_cons_of_ne_nil (ht.mem_ne_nil h1)
  obtain ⟨hpc, hslot, hsorted⟩ := ht.mem x before hl
  have hc : (s.step i).cp0 =
      ((s.cp0.tick i.int_i).write s.mem_wb.wb_cp0).except s.excepttype s.exc_info := rfl
  obtain ⟨hbd, hepc⟩ :=
    entry_of_except ((s.cp0.tick i.int_i).write s.mem_wb.wb_cp0) s.excepttype s.exc_info h1 h2
  rw [← hc] at hbd hepc
  have haddr : s.exc_info.current_inst_addr_i = x.pc := hpc
  have hmark : s.exc_info.is_in_delayslot_i = inSlot before := hslot
  rw [hmark] at hbd hepc
  rw [haddr] at hepc
  refine ⟨x, before, hl, hpc, hl ▸ hsorted, ?_⟩
  cases before with
  | nil => exact ⟨hbd, hepc⟩
  | cons b before =>
    have hb : inSlot (b :: before) = b.taken := rfl
    rw [hb] at hbd hepc
    by_cases htaken : b.taken = true
    · rw [htaken] at hbd hepc
      have hback : inSlot before = false → (s.step i).cp0.epc_o = b.pc := by
        intro hfirst
        rw [hepc, slot_follows (hl ▸ hsorted) hfirst]
        simp
      simp only [NamesRestart, htaken, ↓reduceIte]
      exact ⟨Issued.isBranch_of_taken htaken, hbd, hepc, fun hfirst => ⟨hbd, hback hfirst⟩⟩
    · rw [if_neg htaken] at hepc
      rw [Bool.not_eq_true] at htaken
      rw [htaken] at hbd
      simp only [NamesRestart, htaken, Bool.false_eq_true, ↓reduceIte]
      exact ⟨hbd, hepc⟩

/-- `jr $1` to address 0 and a `syscall` in its slot, up to the exception. -/
def slotSyscallRun : List CpuIn :=
  [.quiet, .quiet, .fetched 0x00200008#32, .quiet, .fetched 0x0000000C#32, .quiet,
    .fetched ZeroWord, .quiet]

theorem exception_names_restart_slot :
    ∃ x before, (Order.run (fun _ => ZeroWord) slotSyscallRun).mem = x :: before ∧
      (Cpu.run (fun _ => ZeroWord) slotSyscallRun).ex_mem.mem_current_inst_addr = x.pc ∧
      InOrder (x :: before) ∧
      NamesRestart ((Cpu.run (fun _ => ZeroWord) slotSyscallRun).step .quiet).cp0 x before :=
  exception_names_restart _ slotSyscallRun .quiet (by decide +kernel) (by decide +kernel)

/-- `bne $0, $0, 2`, which is not taken, and a `syscall` in its slot, up to the exception. -/
def untakenRun : List CpuIn :=
  [.quiet, .quiet, .fetched 0x14000002#32, .quiet, .fetched 0x0000000C#32, .quiet,
    .fetched ZeroWord, .quiet]

theorem untaken_branch_is_not_named :
    ¬ ∀ (regs : RegFile) (is : List CpuIn) (i : CpuIn),
      (Cpu.run regs is).excepttype ≠ .none → (Cpu.run regs is).excepttype ≠ .eret →
        ∃ x before, (Order.run regs is).mem = x :: before ∧
          NamesBranch ((Cpu.run regs is).step i).cp0 x before := by
  intro h
  obtain ⟨x, before, hl, hn⟩ :=
    h (fun _ => ZeroWord) untakenRun .quiet (by decide +kernel) (by decide +kernel)
  have horder : (Order.run (fun _ => ZeroWord) untakenRun).mem =
      [⟨0xBFC00004#32, 0x0000000C#32, ZeroWord, ZeroWord⟩,
        ⟨0xBFC00000#32, 0x14000002#32, ZeroWord, ZeroWord⟩] := by decide +kernel
  rw [horder] at hl
  obtain ⟨rfl, rfl⟩ := List.cons.inj hl
  exact absurd hn.1 (by decide +kernel)

end nehcpu.cpu
