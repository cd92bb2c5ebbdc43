-- Where the bus master sends a physical address, and which device the crossbar
-- `wb_conmax` hands it to. The windows are those of the comments of `wishbone_bus.v`;
-- an address in no arm of its `phy_wb_addr` goes to bus address zero, which is RAM.
import Nehcpu.Cpu.Bus
import Nehcpu.Cpu.Mmu

namespace nehcpu.cpu

/-- The slaves of `nehcpu_sopc.v`. -/
inductive Device
  | sram | flash | rom | uart | vga
deriving DecidableEq, Repr

namespace Device

/-- The first physical address of the window, its bytes, and the first bus address. -/
def base : Device → Nat
  | .sram => 0x00000000 | .flash => 0x1E000000 | .rom => 0x1FC00000 | .uart => 0x1FD003F8
  | .vga => 0x1A000000

def size : Device → Nat
  | .sram => 0x800000 | .flash => 0x1000000 | .rom => 0x1000 | .uart => 8
  -- the last word, at `0x1A096000`, is the scroll offset
  | .vga => 0x96004

def busBase : Device → Nat
  | .sram => 0x00000000 | .flash => 0x10000000 | .rom => 0x20000000 | .uart => 0x30000000
  | .vga => 0x40000000

def InWindow (d : Device) (p : Word) : Prop := d.base ≤ p.toNat ∧ p.toNat < d.base + d.size

def InRange (d : Device) (b : Word) : Prop := d.busBase ≤ b.toNat ∧ b.toNat < d.busBase + d.size

instance (d : Device) (p : Word) : Decidable (d.InWindow p) := inferInstanceAs (Decidable (_ ∧ _))

end Device

/-- `slv_sel` of `wb_conmax_master_if.v`, and what `nehcpu_sopc.v` connects there. -/
def slave (wb_addr_i : Word) : Option Device :=
  match wb_addr_i.extractLsb' 28 4 with
  | 0#4 => some .sram
  | 1#4 => some .flash
  | 2#4 => some .rom
  | 3#4 => some .uart
  | 4#4 => some .vga
  | _ => none

/-! ## The decoder on numbers -/

theorem high_bits_iff (p : Word) (start len : Nat) (c : BitVec len) (h : start + len = 32) :
    p.extractLsb' start len = c ↔ p.toNat / 2 ^ start = c.toNat := by
  rw [← BitVec.toNat_inj, BitVec.extractLsb'_toNat, Nat.shiftRight_eq_div_pow]
  have hp := p.isLt
  rw [Nat.mod_eq_of_lt]
  rw [Nat.div_lt_iff_lt_mul (Nat.two_pow_pos start), ← Nat.pow_add, Nat.add_comm, h]
  exact hp

theorem toNat_low (n : Nat) {m : Nat} (c : BitVec m) (p : Word) :
    (c ++ p.extractLsb' 0 n).toNat = c.toNat * 2 ^ n + p.toNat % 2 ^ n := by
  refine (BitVec.toNat_append _ _).trans ?_
  rw [← Nat.shiftLeft_add_eq_or_of_lt (BitVec.isLt _), Nat.shiftLeft_eq, BitVec.extractLsb'_toNat,
    Nat.shiftRight_zero]

/-- `phy_wb_addr` on numbers. -/
def busNat (n : Nat) : Nat :=
  if n / 2 ^ 23 = 0 then n
  else if n / 2 ^ 24 = 0x1E then 0x10000000 + n % 2 ^ 24
  else if n / 2 ^ 12 = 0x1FC00 then 0x20000000 + n % 2 ^ 12
  else if n / 2 ^ 4 = 0x1FD003F then 0x30000000 + n % 2 ^ 3
  else if n / 2 ^ 24 = 0x1A then 0x40000000 + n % 2 ^ 24
  else if n / 2 ^ 24 = 0x0F then 0x50000000 + n % 2 ^ 24
  else 0

theorem toNat_phy_wb_addr (p : Word) : (phy_wb_addr p).toNat = busNat p.toNat := by
  have h23 : p.extractLsb' 23 9 = 0#9 ↔ p.toNat / 2 ^ 23 = 0 :=
    high_bits_iff p 23 9 0#9 rfl
  have h1E : p.extractLsb' 24 8 = 0x1E#8 ↔ p.toNat / 2 ^ 24 = 0x1E :=
    high_bits_iff p 24 8 0x1E#8 rfl
  have hrom : p.extractLsb' 12 20 = 0x1FC00#20 ↔ p.toNat / 2 ^ 12 = 0x1FC00 :=
    high_bits_iff p 12 20 0x1FC00#20 rfl
  have huart : p.extractLsb' 4 28 = 0x1FD003F#28 ↔ p.toNat / 2 ^ 4 = 0x1FD003F :=
    high_bits_iff p 4 28 0x1FD003F#28 rfl
  have h1A : p.extractLsb' 24 8 = 0x1A#8 ↔ p.toNat / 2 ^ 24 = 0x1A :=
    high_bits_iff p 24 8 0x1A#8 rfl
  have h0F : p.extractLsb' 24 8 = 0x0F#8 ↔ p.toNat / 2 ^ 24 = 0x0F :=
    high_bits_iff p 24 8 0x0F#8 rfl
  unfold phy_wb_addr busNat
  simp only [h23, h1E, hrom, huart, h1A, h0F]
  split_ifs
  · rfl
  · exact toNat_low 24 0x10#8 p
  · exact toNat_low 12 0x20000#20 p
  · exact toNat_low 3 (0x3#4 ++ 0#25) p
  · exact toNat_low 24 0x40#8 p
  · exact toNat_low 24 0x50#8 p
  · rfl

/-- The slave is the first digit of the bus address. -/
theorem slave_eq_none_iff (b : Word) : slave b = none ↔ 5 ≤ b.toNat / 2 ^ 28 := by
  have h := BitVec.extractLsb'_toNat 28 4 b
  rw [Nat.shiftRight_eq_div_pow, Nat.mod_eq_of_lt (by have := b.isLt; omega)] at h
  rw [← h]
  unfold slave
  generalize b.extractLsb' 28 4 = c
  revert c
  decide

/-- In its window an address is moved by a constant. -/
theorem busNat_of_window {d : Device} {n : Nat} (h : d.base ≤ n ∧ n < d.base + d.size) :
    busNat n = d.busBase + (n - d.base) := by
  obtain ⟨h1, h2⟩ := h
  unfold busNat
  cases d
  all_goals
    simp only [Device.base, Device.size, Device.busBase] at h1 h2 ⊢
    split_ifs <;> omega

/-- The device that a bus address is for. -/
theorem slave_of_range {d : Device} {b : Word} (h : d.InRange b) : slave b = some d := by
  have hb := BitVec.extractLsb'_toNat 28 4 b
  rw [Nat.shiftRight_eq_div_pow, Nat.mod_eq_of_lt (by have := b.isLt; omega)] at hb
  have hd : (b.extractLsb' 28 4).toNat = d.busBase / 2 ^ 28 := by
    rw [hb]
    obtain ⟨h1, h2⟩ := h
    cases d
    all_goals
      simp only [Device.busBase, Device.size] at h1 h2 ⊢
      omega
  unfold slave
  generalize b.extractLsb' 28 4 = c at hd
  cases d
  all_goals
    revert c
    decide

/-! ## The law -/

/-- Different addresses of two windows go to different bus addresses, each to its own device. -/
def KeptApart (p q : Word) : Prop :=
  ∀ d e : Device, d.InWindow p → e.InWindow q → p ≠ q →
    phy_wb_addr p ≠ phy_wb_addr q ∧ d.InRange (phy_wb_addr p) ∧ e.InRange (phy_wb_addr q) ∧
      slave (phy_wb_addr p) = some d ∧ slave (phy_wb_addr q) = some e

/-- No device answers for an address outside all windows. -/
def ReachesNothing (p : Word) : Prop := (∀ d : Device, ¬ d.InWindow p) → slave (phy_wb_addr p) = none

theorem inRange_of_window {d : Device} {p : Word} (h : d.InWindow p) :
    (phy_wb_addr p).toNat = d.busBase + (p.toNat - d.base) ∧ d.InRange (phy_wb_addr p) := by
  have hn := (toNat_phy_wb_addr p).trans (busNat_of_window h)
  obtain ⟨h1, h2⟩ := h
  refine ⟨hn, ?_, ?_⟩
  · rw [hn]
    omega
  · rw [hn]
    omega

theorem keptApart (p q : Word) : KeptApart p q := by
  intro d e hd he hne
  obtain ⟨hp, hdr⟩ := inRange_of_window hd
  obtain ⟨hq, her⟩ := inRange_of_window he
  refine ⟨?_, hdr, her, slave_of_range hdr, slave_of_range her⟩
  intro hb
  have hde : d = e := by
    have hs := slave_of_range hdr
    rw [hb, slave_of_range her] at hs
    exact (Option.some_inj.1 hs).symm
  subst hde
  apply hne
  apply BitVec.eq_of_toNat_eq
  rw [hb, hq] at hp
  obtain ⟨h1, -⟩ := hd
  obtain ⟨h2, -⟩ := he
  omega

/-- Outside all windows only the addresses that go to the sixth slave, where nothing is, are
harmless. -/
theorem reachesNothing_iff (p : Word) :
    ReachesNothing p ↔ (∃ d : Device, d.InWindow p) ∨ p.extractLsb' 24 8 = 0x0F#8 := by
  have h0F : p.extractLsb' 24 8 = 0x0F#8 ↔ p.toNat / 2 ^ 24 = 0x0F := high_bits_iff p 24 8 0x0F#8 rfl
  unfold ReachesNothing
  rw [h0F, slave_eq_none_iff, toNat_phy_wb_addr]
  by_cases hw : ∃ d : Device, d.InWindow p
  · obtain ⟨d, hd⟩ := hw
    exact ⟨fun _ => Or.inl ⟨d, hd⟩, fun _ hn => absurd hd (hn d)⟩
  · have hnone : ∀ d : Device, ¬ d.InWindow p := fun d hd => hw ⟨d, hd⟩
    have hbus : 5 ≤ busNat p.toNat / 2 ^ 28 ↔ p.toNat / 2 ^ 24 = 0x0F := by
      have hp := p.isLt
      unfold busNat
      split_ifs
      all_goals omega
    constructor
    · intro h
      exact Or.inr (hbus.1 (h hnone))
    · rintro (h | h)
      · exact absurd h hw
      · exact fun _ => hbus.2 h

/-- The decoder keeps any two physical addresses of `vir2phy` apart, and lets one of them reach
nothing from outside the windows, if and only if that one is in a window or in the block
`0x0F000000`. -/
theorem address_map_iff (held held' : BitVec 4) (tlb tlb' : Tlb) (va va' : Word) :
    KeptApart (vir2phy held tlb va).physical_addr (vir2phy held' tlb' va').physical_addr ∧
        ReachesNothing (vir2phy held tlb va).physical_addr ↔
      (∃ d : Device, d.InWindow (vir2phy held tlb va).physical_addr) ∨
        (vir2phy held tlb va).physical_addr.extractLsb' 24 8 = 0x0F#8 := by
  rw [reachesNothing_iff, and_iff_right (keptApart _ _)]

/-- The kernel address `0x90000000` is outside all windows and reaches the first word of RAM. -/
theorem wild_address_is_ram :
    ¬ ∀ (held held' : BitVec 4) (tlb tlb' : Tlb) (va va' : Word),
      KeptApart (vir2phy held tlb va).physical_addr (vir2phy held' tlb' va').physical_addr ∧
        ReachesNothing (vir2phy held tlb va).physical_addr := by
  intro h
  have hn := (h 0#4 0#4 (fun _ => 0#63) (fun _ => 0#63) 0x90000000#32 0x90000000#32).2
  have hout : ∀ d : Device, ¬ d.InWindow (vir2phy 0#4 (fun _ => 0#63) 0x90000000#32).physical_addr := by
    intro d
    cases d <;> decide +kernel
  exact absurd (hn hout) (by decide +kernel)

end nehcpu.cpu
