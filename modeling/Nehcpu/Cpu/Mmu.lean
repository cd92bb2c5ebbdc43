-- Address translation, `vir2phy.v` and `mmu.v`: the two fixed segments, the TLB
-- of 16 entries, and the miss flags that `mem` turns into exceptions.
import Nehcpu.Cpu.Defines

namespace nehcpu.cpu

/-- A TLB entry: VPN2, then PFN, D and V of the odd page, then those of the even page. -/
abbrev TlbEntry := BitVec 63

abbrev Tlb := BitVec 4 → TlbEntry

/-! ## Fields of an entry -/

/-- `tlb_entry[62:44]` -/
def vpn2 (e : TlbEntry) : BitVec 19 := e.extractLsb' 44 19

/-- `PFN`: bit 12 of the address picks the odd or the even page. -/
def pfnOf (e : TlbEntry) (odd : Bool) : BitVec 20 :=
  if odd then e.extractLsb' 24 20 else e.extractLsb' 2 20

def dirtyOf (e : TlbEntry) (odd : Bool) : Bool := if odd then e[23] else e[1]

def validOf (e : TlbEntry) (odd : Bool) : Bool := if odd then e[22] else e[0]

/-! ## `vir2phy` -/

/-- The upper bits of an address, which an entry is compared with. -/
def vpn2Of (virtual_addr : Word) : BitVec 19 := virtual_addr.extractLsb' 13 19

def hit (tlb : Tlb) (virtual_addr : Word) (i : BitVec 4) : Bool :=
  vpn2 (tlb i) == vpn2Of virtual_addr

/-- `TLB_NR_ENTRY` indices, in the order of the `if` chain. -/
def tlbIndices : List (BitVec 4) := [0, 1, 2, 3, 4, 5, 6, 7, 8, 9, 10, 11, 12, 13, 14, 15]

/-- The first entry that matches. With no match no branch assigns it, so it keeps `held`. -/
def hit_index (held : BitVec 4) (tlb : Tlb) (virtual_addr : Word) : BitVec 4 :=
  (tlbIndices.find? (hit tlb virtual_addr)).getD held

def tlb_miss (tlb : Tlb) (virtual_addr : Word) : Bool :=
  !tlbIndices.any (hit tlb virtual_addr)

def is_kseg0_kseg1 (virtual_addr : Word) : Bool :=
  virtual_addr.extractLsb' 29 3 == 0b100#3 || virtual_addr.extractLsb' 29 3 == 0b101#3

/-- The outputs of `vir2phy`. -/
structure Vir2phy where
  physical_addr : Word
  tlb_miss : Bool
  V : Bool
  D : Bool
  is_kseg0_kseg1 : Bool
deriving DecidableEq, Repr

def vir2phy (held : BitVec 4) (tlb : Tlb) (virtual_addr : Word) : Vir2phy :=
  let e := tlb (hit_index held tlb virtual_addr)
  { physical_addr :=
      if is_kseg0_kseg1 virtual_addr then 0b000#3 ++ virtual_addr.extractLsb' 0 29
      else pfnOf e virtual_addr[12] ++ virtual_addr.extractLsb' 0 12
    tlb_miss := tlb_miss tlb virtual_addr
    V := validOf e virtual_addr[12]
    D := dirtyOf e virtual_addr[12]
    is_kseg0_kseg1 := is_kseg0_kseg1 virtual_addr }

/-! ## `mmu` -/

def is_tlb_modify (d : Vir2phy) (data_addr : Word) (is_write_mem : Bool) : Bool :=
  !d.is_kseg0_kseg1 && data_addr != ZeroWord && is_write_mem && !d.D

def is_tlbs (d : Vir2phy) (data_addr : Word) (is_write_mem : Bool) : Bool :=
  !d.is_kseg0_kseg1 && data_addr != ZeroWord && is_write_mem && (d.tlb_miss || !d.V)

/-- The fetch miss, which a store in the `mem` stage masks. -/
def is_tlbl_inst (f : Vir2phy) (inst_addr : Word) (is_write_mem : Bool) : Bool :=
  !f.is_kseg0_kseg1 && inst_addr != ZeroWord && !is_write_mem && (f.tlb_miss || !f.V)

def is_tlbl_data (d : Vir2phy) (data_addr : Word) (is_write_mem : Bool) : Bool :=
  !d.is_kseg0_kseg1 && data_addr != ZeroWord && !is_write_mem && (d.tlb_miss || !d.V)

def mmu_badvaddr (tlbl_inst : Bool) (inst_addr data_addr : Word) : Word :=
  if tlbl_inst then inst_addr else data_addr

/-- `tlb_write_struct`: the write port of the TLB. -/
structure TlbWrite where
  tlb_write_enable : Bool
  tlb_write_index : BitVec 4
  tlb_write_entry : TlbEntry
deriving DecidableEq, Repr

/-- The TLB after the clock edge. -/
def Tlb.next (tlb : Tlb) (w : TlbWrite) : Tlb :=
  if w.tlb_write_enable then fun i => if i = w.tlb_write_index then w.tlb_write_entry else tlb i
  else tlb

@[simp] theorem Tlb.next_disabled (tlb : Tlb) (w : TlbWrite) (h : w.tlb_write_enable = false) :
    tlb.next w = tlb := by
  unfold Tlb.next
  rw [h]
  rfl

theorem Tlb.next_apply (tlb : Tlb) (w : TlbWrite) (i : BitVec 4) :
    tlb.next w i =
      if w.tlb_write_enable = true ∧ i = w.tlb_write_index then w.tlb_write_entry else tlb i := by
  unfold Tlb.next
  cases w.tlb_write_enable
  · simp
  · simp

/-! ## Which entry answers -/

theorem mem_tlbIndices (i : BitVec 4) : i ∈ tlbIndices := by
  revert i
  decide

theorem tlb_miss_iff (tlb : Tlb) (va : Word) :
    tlb_miss tlb va = true ↔ ∀ i, vpn2 (tlb i) ≠ vpn2Of va := by
  unfold tlb_miss
  rw [Bool.not_eq_true', List.any_eq_false]
  constructor
  · intro h i hi
    exact h i (mem_tlbIndices i) (by unfold hit; rw [hi]; exact beq_self_eq_true _)
  · intro h i _ hi
    exact h i (eq_of_beq hi)

/-- The index answers for the address whenever some entry does. -/
theorem hit_index_spec (held : BitVec 4) (tlb : Tlb) (va : Word)
    (h : ∃ i, vpn2 (tlb i) = vpn2Of va) : vpn2 (tlb (hit_index held tlb va)) = vpn2Of va := by
  unfold hit_index
  rcases hf : tlbIndices.find? (hit tlb va) with _ | j
  · obtain ⟨i, hi⟩ := h
    have hn := List.find?_eq_none.1 hf i (mem_tlbIndices i)
    exact absurd (by unfold hit; rw [hi]; exact beq_self_eq_true _) hn
  · have hj : hit tlb va j = true := List.find?_some hf
    exact eq_of_beq hj

/-- With one entry for the address, the index is that entry's. -/
theorem hit_index_unique (held : BitVec 4) (tlb : Tlb) (va : Word) (i : BitVec 4)
    (hi : vpn2 (tlb i) = vpn2Of va) (hu : ∀ j, vpn2 (tlb j) = vpn2Of va → j = i) :
    hit_index held tlb va = i :=
  hu _ (hit_index_spec held tlb va ⟨i, hi⟩)

/-- With no entry for the address the index stays. -/
theorem hit_index_miss (held : BitVec 4) (tlb : Tlb) (va : Word)
    (h : ∀ i, vpn2 (tlb i) ≠ vpn2Of va) : hit_index held tlb va = held := by
  unfold hit_index
  have hn : tlbIndices.find? (hit tlb va) = none := by
    rw [List.find?_eq_none]
    intro i _ hi
    exact h i (eq_of_beq hi)
  rw [hn]
  rfl

/-- The index is a fixed point: latching it again changes nothing. -/
theorem hit_index_idem (held : BitVec 4) (tlb : Tlb) (va : Word) :
    hit_index (hit_index held tlb va) tlb va = hit_index held tlb va := by
  unfold hit_index
  rcases tlbIndices.find? (hit tlb va) with _ | j
  · rfl
  · rfl

end nehcpu.cpu
