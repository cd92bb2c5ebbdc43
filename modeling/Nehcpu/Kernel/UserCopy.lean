-- What `vmm.c` checks before the kernel touches user memory: `user_mem_check` goes from area to area
-- and looks at the first byte in each, and `copy_string` checks a string part by part.
import Nehcpu.Kernel.VmaList

namespace nehcpu.kernel

open cpu intervals

/-! ## The check -/

abbrev VM_STACK : Word := 8#32

/-- `KERNBASE + KMEMSIZE` for the 32 MiB that are there without `MACH_FPGA`. -/
abbrev KERNTOP : Word := 0x82000000#32

def KERN_ACCESS (start stop : Word) : Prop := KERNBASE ≤ start ∧ start < stop ∧ stop ≤ KERNTOP

instance (start stop : Word) : Decidable (KERN_ACCESS start stop) :=
  inferInstanceAs (Decidable (_ ∧ _ ∧ _))

theorem find_vma_lt {mm mm' : Mm} {addr : Word} {vma : Vma}
    (h : find_vma mm addr = (some vma, mm')) : addr < vma.vm_end := by
  have hv : (find_vma mm addr).1 = some vma := by rw [h]
  rcases Option.or_eq_some_iff.1 hv with hv | ⟨-, hv⟩
  · obtain ⟨-, hin⟩ := Option.filter_eq_some_iff.1 hv
    exact (of_decide_eq_true hin).2
  · simpa using List.find?_some hv

/-- The area has the permission that the access needs. -/
def Vma.permits (vma : Vma) (write : Bool) : Prop :=
  vma.vm_flags &&& (if write then VM_WRITE else VM_READ) ≠ 0#32

instance (vma : Vma) (write : Bool) : Decidable (vma.permits write) :=
  inferInstanceAs (Decidable (_ ≠ _))

/-- The loop of `user_mem_check`. -/
def checkLoop (stop : Word) (write : Bool) (start : Word) (mm : Mm) : Bool × Mm :=
  if start < stop then
    match _h : find_vma mm start with
    | (none, mm) => (false, mm)
    | (some vma, mm) =>
      if start < vma.vm_start then (false, mm)
      else if ¬ vma.permits write then (false, mm)
      else if write ∧ vma.vm_flags &&& VM_STACK ≠ 0#32 ∧ start < vma.vm_start + PGSIZE then
        (false, mm)
      else checkLoop stop write vma.vm_end mm
  else (true, mm)
termination_by stop.toNat - start.toNat
decreasing_by
  have hlt := find_vma_lt _h
  rw [BitVec.lt_def] at *
  omega

/-- Without a memory the range is one of the kernel's. -/
def user_mem_check (mm : Option Mm) (addr len : Word) (write : Bool) : Bool × Option Mm :=
  match mm with
  | some mm =>
    if ¬ USER_ACCESS addr (addr + len) then (false, some mm)
    else
      let (ok, mm) := checkLoop (addr + len) write addr mm
      (ok, some mm)
  | none => (KERN_ACCESS addr (addr + len), none)

/-- A byte that an area with the permission holds, and for a write not in the lowest page of a
stack. -/
def ByteOk (vmas : List Vma) (write : Bool) (b : Nat) : Prop :=
  (∃ vma ∈ vmas, vma.lo ≤ b ∧ b < vma.hi ∧ vma.permits write) ∧
    (write = true → ∀ vma ∈ vmas, vma.vm_flags &&& VM_STACK ≠ 0#32 →
      ¬ (vma.lo ≤ b ∧ b < vma.hi ∧ b < vma.lo + 4096))

/-- Only the cache may be another one. -/
def KeepsAreas (mm mm' : Mm) : Prop :=
  mm' = { mm with mmap_cache := mm'.mmap_cache } ∧ ListOk mm'

section

variable {mm : Mm}

theorem keepsAreas_of_find {mm' : Mm} {addr : Word} {vma : Option Vma} (h : ListOk mm)
    (hf : find_vma mm addr = (vma, mm')) : KeepsAreas mm mm' := by
  have hmm : (find_vma mm addr).2 = mm' := by rw [hf]
  rw [← hmm]
  refine ⟨?_, h.find_vma addr⟩
  rw [find_vma_mm]

theorem KeepsAreas.trans {mm' mm'' : Mm} (h : KeepsAreas mm mm') (h' : KeepsAreas mm' mm'') :
    KeepsAreas mm mm'' :=
  ⟨by rw [h'.1, h.1], h'.2⟩

/-- Where the first area that ends above a byte does not hold it, no area does. -/
theorem not_held (h : ListOk mm) {addr : Word}
    (hf : ∀ vma, (find_vma mm addr).1 = some vma → addr < vma.vm_start) :
    ∀ vma ∈ mm.mmap_list, ¬ (vma.lo ≤ addr.toNat ∧ addr.toNat < vma.hi) := by
  rintro vma hv ⟨hlo, hhi⟩
  have hfound := h.separated.find?_around hv hlo hhi
  rw [← find_vma_eq h] at hfound
  have hlt := hf vma hfound
  rw [BitVec.lt_def] at hlt
  exact absurd hlt (Nat.not_lt.mpr hlo)

/-- The area around a byte is the only one. -/
theorem held_unique (h : ListOk mm) {v w : Vma} {b : Nat} (hv : v ∈ mm.mmap_list)
    (hw : w ∈ mm.mmap_list) (hvb : v.lo ≤ b ∧ b < v.hi) (hwb : w.lo ≤ b ∧ b < w.hi) : v = w := by
  have hfv := h.separated.find?_around hv hvb.1 hvb.2
  have hfw := h.separated.find?_around hw hwb.1 hwb.2
  rw [hfv] at hfw
  exact Option.some_inj.1 hfw

/-- What the loop sees of the area that it finds around `start`. -/
theorem found_around (h : ListOk mm) {mm' : Mm} {vma : Vma} {start : Word}
    (hf : find_vma mm start = (some vma, mm')) (hs : ¬ start < vma.vm_start) :
    vma ∈ mm.mmap_list ∧ vma.lo ≤ start.toNat ∧ start.toNat < vma.hi := by
  have hv : (find_vma mm start).1 = some vma := by rw [hf]
  rw [find_vma_eq h] at hv
  refine ⟨List.mem_of_find?_eq_some hv, ?_, find_vma_lt hf⟩
  exact Nat.le_of_not_lt hs

/-- Whether a byte is one to access is decided by the area around it. -/
theorem byteOk_iff (h : ListOk mm) {vma : Vma} {write : Bool} {b : Nat} (hv : vma ∈ mm.mmap_list)
    (hb : vma.lo ≤ b ∧ b < vma.hi) :
    ByteOk mm.mmap_list write b ↔ vma.permits write ∧
      ¬ (write ∧ vma.vm_flags &&& VM_STACK ≠ 0#32 ∧ b < vma.lo + 4096) := by
  constructor
  · rintro ⟨⟨w, hw, hlo, hhi, hper⟩, hst⟩
    obtain rfl := held_unique h hv hw hb ⟨hlo, hhi⟩
    refine ⟨hper, ?_⟩
    rintro ⟨hwr, hflag, hlow⟩
    exact hst hwr vma hv hflag ⟨hlo, hhi, hlow⟩
  · rintro ⟨hper, hst⟩
    refine ⟨⟨vma, hv, hb.1, hb.2, hper⟩, ?_⟩
    rintro hwr w hw hflag ⟨hlo, hhi, hlow⟩
    obtain rfl := held_unique h hv hw hb ⟨hlo, hhi⟩
    exact hst ⟨hwr, hflag, hlow⟩

/-- The end of the lowest page does not wrap below the user's top. -/
theorem low_iff {vma : Vma} {start stop : Word} (hlo : vma.lo ≤ start.toNat) (hlt : start < stop)
    (hstop : stop ≤ USERTOP) :
    start < vma.vm_start + PGSIZE ↔ start.toNat < vma.lo + 4096 := by
  have hadd : (vma.vm_start + PGSIZE).toNat = (vma.lo + 4096) % 2 ^ 32 := BitVec.toNat_add ..
  rw [BitVec.lt_def] at hlt ⊢
  have hstop : stop.toNat ≤ 2 ^ 31 := hstop
  rw [hadd, Nat.mod_eq_of_lt (by omega)]

/-- The loop looks at one byte of each area only: the others above it are as good, since the
lowest page of a stack is below them too. -/
theorem checkLoop_spec (stop : Word) (write : Bool) (start : Word) (h : ListOk mm)
    (hstop : stop ≤ USERTOP) :
    ((checkLoop stop write start mm).1 = true ↔
      ∀ b, start.toNat ≤ b → b < stop.toNat → ByteOk mm.mmap_list write b) ∧
    KeepsAreas mm (checkLoop stop write start mm).2 := by
  fun_induction checkLoop stop write start mm with
  | case1 start mm hlt mm' hf =>
    have hsame := keepsAreas_of_find h hf
    refine ⟨iff_of_false Bool.false_ne_true ?_, hsame⟩
    intro hall
    obtain ⟨⟨v, hv, hlo, hhi, -⟩, -⟩ := hall start.toNat le_rfl hlt
    refine not_held h (fun vma hn => ?_) v hv ⟨hlo, hhi⟩
    rw [hf] at hn
    cases hn
  | case2 start mm hlt vma mm' hf hs =>
    have hsame := keepsAreas_of_find h hf
    refine ⟨iff_of_false Bool.false_ne_true ?_, hsame⟩
    intro hall
    obtain ⟨⟨v, hv, hlo, hhi, -⟩, -⟩ := hall start.toNat le_rfl hlt
    refine not_held h (fun w hn => ?_) v hv ⟨hlo, hhi⟩
    rw [hf] at hn
    obtain rfl := Option.some_inj.1 hn
    exact hs
  | case3 start mm hlt vma mm' hf hs hper =>
    have hsame := keepsAreas_of_find h hf
    obtain ⟨hv, hin⟩ := found_around h hf hs
    refine ⟨iff_of_false Bool.false_ne_true ?_, hsame⟩
    intro hall
    exact hper ((byteOk_iff h hv hin).1 (hall start.toNat le_rfl hlt)).1
  | case4 start mm hlt vma mm' hf hs hper hst =>
    have hsame := keepsAreas_of_find h hf
    obtain ⟨hv, hin⟩ := found_around h hf hs
    refine ⟨iff_of_false Bool.false_ne_true ?_, hsame⟩
    intro hall
    apply ((byteOk_iff h hv hin).1 (hall start.toNat le_rfl hlt)).2
    exact ⟨hst.1, hst.2.1, (low_iff hin.1 hlt hstop).1 hst.2.2⟩
  | case5 start mm hlt vma mm' hf hs hper hst ih =>
    have hsame := keepsAreas_of_find h hf
    obtain ⟨hv, hin⟩ := found_around h hf hs
    obtain ⟨hiff, hrest⟩ := ih hsame.2
    refine ⟨?_, hsame.trans hrest⟩
    have hlist : mm'.mmap_list = mm.mmap_list := by rw [hsame.1]
    rw [hiff, hlist]
    constructor
    · intro hall b hb hb'
      rcases Nat.lt_or_ge b vma.hi with hbv | hbv
      · refine (byteOk_iff h hv ⟨le_trans hin.1 hb, hbv⟩).2 ⟨not_not.1 hper, ?_⟩
        rintro ⟨hwr, hflag, hlow⟩
        refine hst ⟨hwr, hflag, (low_iff hin.1 hlt hstop).2 ?_⟩
        exact Nat.lt_of_le_of_lt hb hlow
      · exact hall b hbv hb'
    · intro hall b hb hb'
      exact hall b (le_trans (le_of_lt hin.2) hb) hb'
  | case6 start mm hlt =>
    refine ⟨iff_of_true rfl ?_, rfl, h⟩
    intro b hb hb'
    exact absurd (Nat.lt_of_le_of_lt hb hb') hlt

theorem user_access_add (addr len : Word) :
    USER_ACCESS addr (addr + len) ↔
      0 < len.toNat ∧ USERBASE.toNat ≤ addr.toNat ∧ addr.toNat + len.toNat ≤ USERTOP.toNat := by
  unfold USER_ACCESS
  have haddr := addr.isLt
  have hlen := len.isLt
  have htop : USERTOP.toNat = 2 ^ 31 := rfl
  rw [BitVec.le_def, BitVec.lt_def, BitVec.le_def, BitVec.toNat_add]
  omega

/-- `user_mem_check` ends with the answer for the whole range, whatever is in the cache, and
changes nothing but the cache. -/
theorem user_mem_check_spec (h : ListOk mm) (addr len : Word) (write : Bool) :
    ∃ mm', KeepsAreas mm mm' ∧ (user_mem_check (some mm) addr len write).2 = some mm' ∧
      ((user_mem_check (some mm) addr len write).1 = true ↔
        0 < len.toNat ∧ USERBASE.toNat ≤ addr.toNat ∧
          addr.toNat + len.toNat ≤ USERTOP.toNat ∧
          ∀ b, addr.toNat ≤ b → b < addr.toNat + len.toNat → ByteOk mm.mmap_list write b) := by
  unfold user_mem_check
  by_cases hu : USER_ACCESS addr (addr + len)
  · have hr := (user_access_add addr len).1 hu
    have hadd : (addr + len).toNat = addr.toNat + len.toNat := by
      have htop : USERTOP.toNat = 2 ^ 31 := rfl
      rw [BitVec.toNat_add, Nat.mod_eq_of_lt (by omega)]
    obtain ⟨hiff, hsame⟩ := checkLoop_spec (addr + len) write addr h hu.2.2
    simp only [hu, not_true_eq_false, if_false]
    refine ⟨_, hsame, rfl, ?_⟩
    rw [hiff, hadd]
    exact ⟨fun hb => ⟨hr.1, hr.2.1, hr.2.2, hb⟩, fun hb => hb.2.2.2⟩
  · simp only [hu, not_false_eq_true, if_true]
    refine ⟨mm, ⟨rfl, h⟩, rfl, iff_of_false Bool.false_ne_true ?_⟩
    rintro ⟨hlen, hbase, htop, -⟩
    exact hu ((user_access_add addr len).2 ⟨hlen, hbase, htop⟩)

end

/-- The check is exact: it passes a range when it is not empty, lies between the user's bounds
without a wrap, and the program may access each of its bytes. -/
theorem user_mem_check_exact (mm : Mm) (h : ListOk mm) (addr len : Word) (write : Bool) :
    (user_mem_check (some mm) addr len write).1 = true ↔
      0 < len.toNat ∧ USERBASE.toNat ≤ addr.toNat ∧ addr.toNat + len.toNat ≤ USERTOP.toNat ∧
        ∀ b, addr.toNat ≤ b → b < addr.toNat + len.toNat → ByteOk mm.mmap_list write b := by
  obtain ⟨-, -, -, hiff⟩ := user_mem_check_spec h addr len write
  exact hiff

/-- Two areas side by side and a stack, with a stale cache. -/
def threeAreas : Mm :=
  let code : Vma := ⟨0x10000000#32, 0x10002000#32, VM_READ ||| VM_EXEC⟩
  let data : Vma := ⟨0x10002000#32, 0x10003000#32, VM_READ ||| VM_WRITE⟩
  let stack : Vma := ⟨0x7FFF0000#32, 0x80000000#32, VM_READ ||| VM_WRITE ||| VM_STACK⟩
  ⟨[code, data, stack], some stack, 1, 3, 1⟩

theorem threeAreas_ok : ListOk threeAreas := by
  refine ⟨⟨by decide, by decide⟩, rfl, ?_⟩
  rintro vma hv
  obtain rfl := Option.some_inj.1 hv
  decide

theorem user_mem_check_exact_threeAreas :
    ByteOk threeAreas.mmap_list false 0x10002FFF ∧
      ¬ ∀ b, 0x10001000 ≤ b → b < 0x10003000 → ByteOk threeAreas.mmap_list true b := by
  have hread := user_mem_check_exact threeAreas threeAreas_ok 0x10001000#32 0x2000#32 false
  have hwrite := user_mem_check_exact threeAreas threeAreas_ok 0x10001000#32 0x2000#32 true
  constructor
  · exact (hread.1 (by decide +kernel)).2.2.2 0x10002FFF (by decide) (by decide)
  · intro hall
    have hok := hwrite.2 ⟨by decide, by decide, by decide, hall⟩
    exact absurd hok (by decide +kernel)

end nehcpu.kernel
