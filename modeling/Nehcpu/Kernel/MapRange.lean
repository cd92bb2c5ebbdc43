-- Which ranges `mm_map` takes. The end of a range is computed modulo `2 ^ 32` before it is compared,
-- so some that are empty, or that run past the end of memory, are taken as the page they start in.
import Nehcpu.Kernel.Areas
import Nehcpu.Kernel.VmaList

namespace nehcpu.kernel

open cpu intervals

/-! ## Ranges -/

/-- The range is not empty and lies in the user segment, as numbers. -/
def ValidRange (addr len : Word) : Prop :=
  0 < len.toNat ∧ USERBASE.toNat ≤ addr.toNat ∧ addr.toNat + len.toNat ≤ USERTOP.toNat

/-- Some address of the range is in the area. -/
def Overlaps (addr len : Word) (w : Vma) : Prop :=
  addr.toNat < w.hi ∧ w.lo < addr.toNat + len.toNat

/-- The area of whole pages that `mm_map` makes. -/
def mappedArea (addr len vm_flags : Word) : Vma :=
  ⟨ROUNDDOWN_2N addr PGSHIFT, ROUNDUP_2N (addr + len) PGSHIFT, vm_flags⟩

/-- The first address of the page. -/
def pageOf (addr : Word) : Nat := addr.toNat / 4096 * 4096

/-- From the end of the range modulo `2 ^ 32` up to `addr` it is less than to the start of the
page. So the end is in the same page, where an empty range has it, or one that goes once around. -/
def EndsInPage (addr len : Word) : Prop := (-len).toNat < addr.toNat % 4096

instance (addr len : Word) : Decidable (EndsInPage addr len) := inferInstanceAs (Decidable (_ < _))

section

variable (addr len vm_flags : Word)

theorem mappedArea_lo : (mappedArea addr len vm_flags).lo = pageOf addr := toNat_page addr

theorem mappedArea_hi :
    (mappedArea addr len vm_flags).hi =
      ((addr.toNat + len.toNat) % 2 ^ 32 + 4095) % 2 ^ 32 / 4096 * 4096 := by
  have h : (addr + len + 1#32 <<< PGSHIFT - 1#32).toNat =
      ((addr.toNat + len.toNat) % 2 ^ 32 + 4095) % 2 ^ 32 := by
    have hone : 1#32 <<< PGSHIFT = 4096#32 := by decide
    rw [hone, BitVec.toNat_sub, BitVec.toNat_add, BitVec.toNat_add]
    simp only [BitVec.toNat_ofNat]
    omega
  show (ROUNDDOWN_2N (addr + len + 1#32 <<< PGSHIFT - 1#32) PGSHIFT).toNat = _
  rw [toNat_page, h]

/-- The test of the code takes the valid ranges, and those that end in their first page. -/
theorem user_access_iff :
    USER_ACCESS (mappedArea addr len vm_flags).vm_start (mappedArea addr len vm_flags).vm_end ↔
      ValidRange addr len ∨
        (USERBASE.toNat ≤ addr.toNat ∧ addr.toNat < USERTOP.toNat ∧ EndsInPage addr len) := by
  have hlo := mappedArea_lo addr len vm_flags
  have hhi := mappedArea_hi addr len vm_flags
  have ha := addr.isLt
  have hl := len.isLt
  have hbase : USERBASE.toNat = 0x10000000 := rfl
  have htop : USERTOP.toNat = 0x80000000 := rfl
  have hnum : USER_ACCESS (mappedArea addr len vm_flags).vm_start
      (mappedArea addr len vm_flags).vm_end ↔
        USERBASE.toNat ≤ (mappedArea addr len vm_flags).lo ∧
          (mappedArea addr len vm_flags).lo < (mappedArea addr len vm_flags).hi ∧
            (mappedArea addr len vm_flags).hi ≤ USERTOP.toNat := Iff.rfl
  rw [hnum, hlo, hhi, hbase, htop]
  unfold ValidRange EndsInPage pageOf
  rw [BitVec.toNat_neg, hbase, htop]
  omega

variable {addr len}

theorem mappedArea_contains (h : ValidRange addr len) :
    (mappedArea addr len vm_flags).lo ≤ addr.toNat ∧
      addr.toNat + len.toNat ≤ (mappedArea addr len vm_flags).hi := by
  have htop : USERTOP.toNat = 0x80000000 := rfl
  obtain ⟨-, -, h⟩ := h
  rw [mappedArea_lo, mappedArea_hi]
  unfold pageOf
  omega

/-- A range that ends in its first page is taken as that page. -/
theorem mappedArea_page (h : EndsInPage addr len) (htop : addr.toNat < USERTOP.toNat) :
    (mappedArea addr len vm_flags).hi = pageOf addr + 4096 := by
  have ht : USERTOP.toNat = 0x80000000 := rfl
  unfold EndsInPage at h
  rw [BitVec.toNat_neg] at h
  rw [mappedArea_hi]
  unfold pageOf
  omega

end

/-! ## The three ends of `mm_map` -/

/-- All that a memory says but where the next lookup begins, which `find_vma` keeps in the cache. -/
structure SameAreas (mm mm' : Mm) : Prop where
  mmap_list : mm'.mmap_list = mm.mmap_list
  pgdir : mm'.pgdir = mm.pgdir
  map_count : mm'.map_count = mm.map_count
  mm_count : mm'.mm_count = mm.mm_count
  lookup : ∀ addr, (find_vma mm' addr).1 = (find_vma mm addr).1

theorem SameAreas.refl (mm : Mm) : SameAreas mm mm := ⟨rfl, rfl, rfl, rfl, fun _ => rfl⟩

theorem SameAreas.find_vma {mm : Mm} (h : ListOk mm) (addr : Word) :
    SameAreas mm (find_vma mm addr).2 := by
  have hok := h.find_vma addr
  have hmm := find_vma_mm mm addr
  refine ⟨?_, ?_, ?_, ?_, ?_⟩
  · rw [hmm]
  · rw [hmm]
  · rw [hmm]
  · rw [hmm]
  · intro a
    rw [find_vma_eq hok, find_vma_eq h, hmm]

theorem mm_map_mappedArea (mm : Mm) (addr len vm_flags : Word) (memory : Bool) :
    mm_map mm addr len vm_flags memory =
      let vma := mappedArea addr len vm_flags
      if ¬ USER_ACCESS vma.vm_start vma.vm_end then some (mm, false)
      else if ∃ v ∈ (find_vma mm vma.vm_start).1, v.vm_start < vma.vm_end then
        some ((find_vma mm vma.vm_start).2, false)
      else if memory = false then some ((find_vma mm vma.vm_start).2, false)
      else
        match insert_vma_struct (find_vma mm vma.vm_start).2.mmap_list vma with
        | none => none
        | some list => some ((find_vma mm vma.vm_start).2.linked list, true) := rfl

/-- How a call of `mm_map` ends: the test fails, an area is in the way or there is no memory, or the
area is linked. -/
theorem mm_map_ends {mm : Mm} (h : ListOk mm) (addr len vm_flags : Word) (memory : Bool) :
    let vma := mappedArea addr len vm_flags
    (¬ USER_ACCESS vma.vm_start vma.vm_end ∧
      mm_map mm addr len vm_flags memory = some (mm, false)) ∨
    (USER_ACCESS vma.vm_start vma.vm_end ∧
      ((∃ w ∈ mm.mmap_list, ¬ Apart Vma.lo Vma.hi vma w) ∨ memory = false) ∧
      mm_map mm addr len vm_flags memory = some ((find_vma mm vma.vm_start).2, false)) ∨
    (USER_ACCESS vma.vm_start vma.vm_end ∧ (∀ w ∈ mm.mmap_list, Apart Vma.lo Vma.hi vma w) ∧
      memory = true ∧ ∃ list, list.Perm (vma :: mm.mmap_list) ∧
        mm_map mm addr len vm_flags memory =
          some ((find_vma mm vma.vm_start).2.linked list, true)) := by
  intro vma
  have hok := h.find_vma vma.vm_start
  have hf := find_vma_eq h vma.vm_start
  have hlist : (find_vma mm vma.vm_start).2.mmap_list = mm.mmap_list :=
    (SameAreas.find_vma h vma.vm_start).mmap_list
  rw [mm_map_mappedArea]
  by_cases hu : USER_ACCESS vma.vm_start vma.vm_end
  · right
    rw [if_neg (not_not.mpr hu)]
    by_cases hv : ∃ v ∈ (find_vma mm vma.vm_start).1, v.vm_start < vma.vm_end
    · left
      rw [if_pos hv]
      refine ⟨hu, Or.inl ?_, rfl⟩
      -- the area that is found ends above the start and begins below the end
      obtain ⟨v, hfound, hlt⟩ := hv
      rw [hf] at hfound
      have hend := List.find?_some hfound
      simp only [decide_eq_true_eq] at hend
      refine ⟨v, List.mem_of_find?_eq_some hfound, ?_⟩
      rintro (hle | hle)
      · exact absurd hlt (Nat.not_lt.mpr hle)
      · exact absurd hend (Nat.not_lt.mpr hle)
    · rw [if_neg hv]
      by_cases hm : memory = false
      · left
        rw [if_pos hm]
        exact ⟨hu, Or.inr hm, rfl⟩
      · right
        rw [if_neg hm]
        have hap : ∀ w ∈ mm.mmap_list, Apart Vma.lo Vma.hi vma w := by
          apply h.separated.apart_of_find?
          intro w hw
          apply Nat.le_of_not_lt
          intro hlt
          apply hv
          refine ⟨w, ?_, hlt⟩
          rw [hf]
          exact hw
        have hap' : ∀ w ∈ (find_vma mm vma.vm_start).2.mmap_list, Apart Vma.lo Vma.hi vma w := by
          rw [hlist]
          exact hap
        have hi := insert_vma_struct_eq hok.separated hu.2.1 hap'
        have hperm := (hok.linked hu.2.1 hap' hi).2
        rw [hi]
        rw [hlist] at hperm ⊢
        exact ⟨hu, hap, Bool.eq_true_of_not_eq_false hm, _, hperm, rfl⟩
  · left
    rw [if_pos hu]
    exact ⟨hu, rfl⟩

/-! ## The ranges that are taken -/

/-- What one call of `mm_map` should do: it succeeds only for a valid range, with an area around it
that meets no other, and where the range is not valid or meets an area it fails and the areas stay. -/
structure MapsRanges (mm : Mm) (addr len vm_flags : Word) (memory : Bool) : Prop where
  succeeds : ∀ mm', mm_map mm addr len vm_flags memory = some (mm', true) →
    ValidRange addr len ∧ ∃ vma : Vma, mm'.mmap_list.Perm (vma :: mm.mmap_list) ∧
      vma.lo ≤ addr.toNat ∧ addr.toNat + len.toNat ≤ vma.hi ∧ vma.vm_flags = vm_flags ∧
      ∀ w ∈ mm.mmap_list, Apart Vma.lo Vma.hi vma w
  fails : (¬ ValidRange addr len ∨ ∃ w ∈ mm.mmap_list, Overlaps addr len w) →
    ∃ mm', mm_map mm addr len vm_flags memory = some (mm', false) ∧ SameAreas mm mm'

/-- The range is not valid, but ends in its first page, which is a free page of the user segment. -/
structure SlipsThrough (mm : Mm) (addr len : Word) (memory : Bool) : Prop where
  ends : EndsInPage addr len
  user : USERBASE.toNat ≤ addr.toNat ∧ addr.toNat < USERTOP.toNat
  free : ∀ w ∈ mm.mmap_list, pageOf addr + 4096 ≤ w.lo ∨ w.hi ≤ pageOf addr
  memory : memory = true

/-- A range that ends in its first page is empty or goes around. -/
theorem EndsInPage.not_valid {addr len : Word} (h : EndsInPage addr len) : ¬ ValidRange addr len := by
  have htop : USERTOP.toNat = 0x80000000 := rfl
  unfold EndsInPage at h
  rw [BitVec.toNat_neg] at h
  rintro ⟨hpos, -, hle⟩
  omega

theorem not_mapsRanges_of_slips {mm : Mm} (h : ListOk mm) {addr len : Word} (vm_flags : Word)
    {memory : Bool} (hs : SlipsThrough mm addr len memory) :
    ¬ MapsRanges mm addr len vm_flags memory := by
  intro hmaps
  have hua := (user_access_iff addr len vm_flags).mpr (Or.inr ⟨hs.user.1, hs.user.2, hs.ends⟩)
  have hlo := mappedArea_lo addr len vm_flags
  have hhi := mappedArea_page vm_flags hs.ends hs.user.2
  rcases mm_map_ends h addr len vm_flags memory with ⟨hn, -⟩ | ⟨-, hbusy, -⟩ | ⟨-, -, -, _, -, hmap⟩
  · exact hn hua
  · rcases hbusy with ⟨w, hw, hmeets⟩ | hm
    · apply hmeets
      unfold Apart
      rw [hlo, hhi]
      exact hs.free w hw
    · rw [hs.memory] at hm
      cases hm
  · exact hs.ends.not_valid (hmaps.succeeds _ hmap).1

/-- `mm_map` takes ranges as it should, unless one slips through. -/
theorem mapsRanges_iff (mm : Mm) (h : ListOk mm) (addr len vm_flags : Word) (memory : Bool) :
    MapsRanges mm addr len vm_flags memory ↔ ¬ SlipsThrough mm addr len memory := by
  constructor
  · intro hmaps hs
    exact not_mapsRanges_of_slips h vm_flags hs hmaps
  · intro hno
    have hlo := mappedArea_lo addr len vm_flags
    have hsame := SameAreas.find_vma h (mappedArea addr len vm_flags).vm_start
    rcases mm_map_ends h addr len vm_flags memory with
      ⟨-, hmap⟩ | ⟨-, -, hmap⟩ | ⟨hua, hap, hm, list, hperm, hmap⟩
    · constructor
      · intro mm' hmm'
        rw [hmap] at hmm'
        cases hmm'
      · intro _
        exact ⟨mm, hmap, SameAreas.refl mm⟩
    · constructor
      · intro mm' hmm'
        rw [hmap] at hmm'
        cases hmm'
      · intro _
        exact ⟨_, hmap, hsame⟩
    · have hvalid : ValidRange addr len := by
        rcases (user_access_iff addr len vm_flags).mp hua with hvalid | ⟨hbase, htop, hends⟩
        · exact hvalid
        · refine absurd ⟨hends, ⟨hbase, htop⟩, ?_, hm⟩ hno
          intro w hw
          have hwap := hap w hw
          unfold Apart at hwap
          rw [hlo, mappedArea_page vm_flags hends htop] at hwap
          exact hwap
      have hin := mappedArea_contains vm_flags hvalid
      constructor
      · intro mm' hmm'
        rw [hmap] at hmm'
        obtain ⟨rfl, -⟩ := Prod.mk.inj (Option.some_inj.mp hmm')
        exact ⟨hvalid, mappedArea addr len vm_flags, hperm, hin.1, hin.2, rfl, hap⟩
      · rintro (hbad | ⟨w, hw, hover⟩)
        · exact absurd hvalid hbad
        · rcases hap w hw with hle | hle
          · exact absurd (hle.trans_lt hover.2) (Nat.not_lt.mpr hin.2)
          · exact absurd (hover.1.trans_le hle) (Nat.not_lt.mpr hin.1)

theorem mapsRanges_two_pages :
    MapsRanges (mm_create 0) 0x10000800#32 0x1000#32 VM_READ true ↔
      ¬ SlipsThrough (mm_create 0) 0x10000800#32 0x1000#32 true :=
  mapsRanges_iff (mm_create 0) (ListOk.create 0) 0x10000800#32 0x1000#32 VM_READ true

/-- A segment of `2 ^ 32 - 1` bytes from `0x10000FFF` on is taken as one page. -/
theorem not_mapsRanges : ¬ ∀ mm : Mm, ListOk mm → ∀ addr len vm_flags memory,
    MapsRanges mm addr len vm_flags memory := by
  intro h
  have hs : SlipsThrough (mm_create 0) 0x10000FFF#32 0xFFFFFFFF#32 true := by
    refine ⟨by decide, by decide, ?_, rfl⟩
    intro w hw
    cases hw
  exact not_mapsRanges_of_slips (ListOk.create 0) VM_READ hs (h _ (ListOk.create 0) _ _ _ _)

end nehcpu.kernel
