-- The area lists of `vmm.c`: several memories that grow by `mm_map` and `dup_mmap` and are
-- asked by `find_vma`, in any order, and what their lists keep.
import Nehcpu.Lib.Intervals
import Nehcpu.Lib.Machine
import Nehcpu.Kernel.Process

namespace nehcpu.kernel

open cpu intervals machine

/-! ## The memories -/

/-- The areas that `dupLoop` links, each with the list that it meets. -/
def dupInserts (a : CopyPages) (src : Nat) : List Vma → Vm → Mm → List (List Vma × Vma)
  | [], _, _ => []
  | vma :: vmas, vm, mm =>
    if a.vma vma.vm_start = false then []
    else
      (mm.mmap_list, vma) ::
        match insert_vma_struct mm.mmap_list vma with
        | none => []
        | some list =>
          match copy_range a vm mm.pgdir src vma.vm_start vma.vm_end with
          | some (vm, true) => dupInserts a src vmas vm (mm.linked list)
          | _ => []

/-- No area of one memory meets an area of the other. A new memory is apart from all. -/
def MmsApart (dst src : Mm) : Prop :=
  ∀ v ∈ dst.mmap_list, ∀ w ∈ src.mmap_list, v.vm_end ≤ w.vm_start ∨ w.vm_end ≤ v.vm_start

instance (dst src : Mm) : Decidable (MmsApart dst src) :=
  inferInstanceAs (Decidable (∀ v ∈ dst.mmap_list, ∀ w ∈ src.mmap_list, _))

/-- What happens to the memories. The page tables that a copy meets may be any. -/
inductive MmOp
  | mm_create (mm pgdir : Nat)
  | find_vma (mm : Nat) (addr : Word)
  | mm_map (mm : Nat) (addr len vm_flags : Word) (memory : Bool)
  | dup_mmap (dst src : Nat) (vm : Vm) (a : CopyPages)

def setMm (mms : Nat → Option Mm) (i : Nat) (mm : Mm) : Nat → Option Mm := fun j =>
  if j = i then some mm else mms j

/-- One operation. There is none on a memory that does not exist or after an assertion that
failed, and none that copies areas among others that they meet: `copy_mm` copies into a new
memory. -/
def MmOp.step (mms : Nat → Option Mm) : MmOp → Option (Nat → Option Mm)
  | .mm_create i pgdir =>
    if mms i = none then some (setMm mms i (nehcpu.kernel.mm_create pgdir)) else none
  | .find_vma i addr => (mms i).map fun mm => setMm mms i (nehcpu.kernel.find_vma mm addr).2
  | .mm_map i addr len vm_flags memory =>
    (mms i).bind fun mm =>
      (nehcpu.kernel.mm_map mm addr len vm_flags memory).map fun (mm, _) => setMm mms i mm
  | .dup_mmap i j vm a =>
    (mms i).bind fun dst => (mms j).bind fun src =>
      if MmsApart dst src then
        (nehcpu.kernel.dup_mmap a vm dst src).map fun (_, dst, _) => setMm mms i dst
      else none

/-! ## What a list keeps -/

abbrev Vma.lo (vma : Vma) : Nat := vma.vm_start.toNat
abbrev Vma.hi (vma : Vma) : Nat := vma.vm_end.toNat

structure ListOk (mm : Mm) : Prop where
  separated : Separated Vma.lo Vma.hi mm.mmap_list
  count : mm.map_count = mm.mmap_list.length
  cache : ∀ vma, mm.mmap_cache = some vma → vma ∈ mm.mmap_list

theorem ListOk.create (pgdir : Nat) : ListOk (mm_create pgdir) := by
  refine ⟨Separated.nil, rfl, ?_⟩
  intro vma hv
  cases hv

/-- The cache makes no difference: an area around the address is the first that ends
above it. -/
theorem find_vma_eq {mm : Mm} (h : ListOk mm) (addr : Word) :
    (find_vma mm addr).1 =
      mm.mmap_list.find? fun v => decide (addr.toNat < v.hi) := by
  have hfst : (find_vma mm addr).1 =
      (mm.mmap_cache.filter fun vma => vma.vm_start ≤ addr ∧ addr < vma.vm_end).or
        (mm.mmap_list.find? fun v => decide (addr.toNat < v.hi)) := rfl
  rcases hc : mm.mmap_cache with _ | vma
  · rw [hfst, hc]
    rfl
  · rw [hfst, hc, Option.filter_some]
    split
    · next hin =>
      have hin := of_decide_eq_true hin
      rw [Option.some_or]
      exact (h.separated.find?_around (h.cache vma hc) hin.1 hin.2).symm
    · rw [Option.none_or]

theorem find_vma_mm (mm : Mm) (addr : Word) :
    (find_vma mm addr).2 =
      { mm with mmap_cache := (find_vma mm addr).1.or mm.mmap_cache } := by
  have hmm : (find_vma mm addr).2 =
      if (find_vma mm addr).1.isSome then { mm with mmap_cache := (find_vma mm addr).1 } else mm :=
    rfl
  rw [hmm]
  cases (find_vma mm addr).1 with
  | none => rfl
  | some vma => rfl

theorem ListOk.find_vma {mm : Mm} (h : ListOk mm) (addr : Word) :
    ListOk (find_vma mm addr).2 := by
  have hf := find_vma_eq h addr
  rw [find_vma_mm]
  refine ⟨h.separated, h.count, ?_⟩
  intro vma hv
  rcases Option.or_eq_some_iff.1 hv with hv | ⟨-, hv⟩
  · rw [hf] at hv
    exact List.mem_of_find?_eq_some hv
  · exact h.cache vma hv

/-- An area that meets none of the list passes the assertions. -/
theorem insert_vma_struct_eq {list : List Vma} {vma : Vma} (h : Separated Vma.lo Vma.hi list)
    (hv : vma.lo < vma.hi) (hap : ∀ w ∈ list, Apart Vma.lo Vma.hi vma w) :
    insert_vma_struct list vma =
      some ((list.takeWhile fun w => decide (w.lo ≤ vma.lo)) ++
        vma :: list.dropWhile fun w => decide (w.lo ≤ vma.lo)) := by
  obtain ⟨hb, ha⟩ := h.split hv hap
  unfold insert_vma_struct
  apply if_pos
  refine ⟨hv, ?_, ?_⟩
  · intro prev hprev
    have hmem := List.mem_of_getLast? hprev
    exact ⟨h.proper prev (List.takeWhile_subset _ hmem), hb prev hmem, hv⟩
  · intro next hnext
    have hmem := List.mem_of_head? hnext
    exact ⟨hv, ha next hmem, h.proper next ((List.dropWhile_suffix _).subset hmem)⟩

/-- The assertions pass for no other area. -/
theorem apart_of_insert {list list' : List Vma} {vma : Vma} (h : Separated Vma.lo Vma.hi list)
    (hi : insert_vma_struct list vma = some list') :
    vma.lo < vma.hi ∧ ∀ w ∈ list, Apart Vma.lo Vma.hi vma w := by
  unfold insert_vma_struct at hi
  simp only at hi
  split at hi
  · next hc =>
    have hsplit := List.takeWhile_append_dropWhile
      (p := fun v => decide (v.vm_start ≤ vma.vm_start)) (l := list)
    rw [← hsplit] at h ⊢
    refine ⟨hc.1, h.apart_of_neighbours ?_ ?_⟩
    · intro u hu
      exact (hc.2.1 u hu).2.1
    · intro u hu
      exact (hc.2.2 u hu).2.1
  · cases hi

theorem ListOk.linked {mm : Mm} {list : List Vma} {vma : Vma} (h : ListOk mm)
    (hv : vma.lo < vma.hi) (hap : ∀ w ∈ mm.mmap_list, Apart Vma.lo Vma.hi vma w)
    (hi : insert_vma_struct mm.mmap_list vma = some list) :
    ListOk (mm.linked list) ∧ list.Perm (vma :: mm.mmap_list) := by
  rw [insert_vma_struct_eq h.separated hv hap] at hi
  obtain rfl := Option.some_inj.1 hi
  have hsplit := List.takeWhile_append_dropWhile (p := fun w : Vma => decide (w.lo ≤ vma.lo))
    (l := mm.mmap_list)
  have hperm : ((mm.mmap_list.takeWhile fun w => decide (w.lo ≤ vma.lo)) ++
      vma :: mm.mmap_list.dropWhile fun w => decide (w.lo ≤ vma.lo)).Perm (vma :: mm.mmap_list) := by
    apply List.perm_middle.trans
    rw [hsplit]
  refine ⟨⟨h.separated.insert hv hap, ?_, ?_⟩, hperm⟩
  · have hlen := hperm.length_eq
    rw [List.length_cons] at hlen
    show mm.map_count + 1 = _
    rw [h.count]
    exact hlen.symm
  · intro w hw
    exact hperm.mem_iff.2 (List.mem_cons_of_mem vma (h.cache w hw))

/-! ## The operations -/

/-- `mm_map` never meets an area: it returns, and the list stays as it should be. -/
theorem mm_map_ok {mm : Mm} (h : ListOk mm) (addr len vm_flags : Word) (memory : Bool) :
    ∃ mm' ok, mm_map mm addr len vm_flags memory = some (mm', ok) ∧ ListOk mm' := by
  have hok := h.find_vma (ROUNDDOWN_2N addr PGSHIFT)
  have hf := find_vma_eq h (ROUNDDOWN_2N addr PGSHIFT)
  have hmm := find_vma_mm mm (ROUNDDOWN_2N addr PGSHIFT)
  unfold mm_map
  simp only
  split
  · exact ⟨mm, false, rfl, h⟩
  · next hu =>
    split
    · exact ⟨_, false, rfl, hok⟩
    · next hnone =>
      split
      · exact ⟨_, false, rfl, hok⟩
      · obtain ⟨vma, hvma⟩ : ∃ vma : Vma, vma = ⟨ROUNDDOWN_2N addr PGSHIFT,
            ROUNDUP_2N (addr + len) PGSHIFT, vm_flags⟩ := ⟨_, rfl⟩
        have hv : vma.lo < vma.hi := by
          rw [hvma]
          exact (not_not.1 hu).2.1
        have hlist : (find_vma mm (ROUNDDOWN_2N addr PGSHIFT)).2.mmap_list = mm.mmap_list := by
          rw [hmm]
        have hap : ∀ w ∈ (find_vma mm (ROUNDDOWN_2N addr PGSHIFT)).2.mmap_list,
            Apart Vma.lo Vma.hi vma w := by
          rw [hlist]
          apply h.separated.apart_of_find?
          intro w hw
          have hw' : (find_vma mm (ROUNDDOWN_2N addr PGSHIFT)).1 = some w := by
            rw [hf, ← hw, hvma]
          apply Nat.le_of_not_lt
          intro hlt
          apply hnone
          refine ⟨w, hw', ?_⟩
          rw [hvma] at hlt
          exact hlt
        have hi := insert_vma_struct_eq hok.separated hv hap
        rw [← hvma, hi]
        exact ⟨_, true, rfl, (hok.linked hv hap hi).1⟩

/-- `dup_mmap` into a memory apart from the areas that are left to copy. -/
theorem dupLoop_ok {a : CopyPages} {src : Nat} (vmas : List Vma) (vm : Vm) (mm : Mm)
    (h : ListOk mm) (hv : ∀ v ∈ vmas, v.lo < v.hi) (hvs : vmas.Pairwise (Apart Vma.lo Vma.hi))
    (hap : ∀ v ∈ vmas, ∀ w ∈ mm.mmap_list, Apart Vma.lo Vma.hi v w) :
    (∀ p ∈ dupInserts a src vmas vm mm, insert_vma_struct p.1 p.2 ≠ none) ∧
      ∀ vm' mm' ok, dupLoop a src vmas vm mm = some (vm', mm', ok) → ListOk mm' := by
  induction vmas generalizing vm mm with
  | nil =>
    refine ⟨fun p hp => (List.not_mem_nil hp).elim, ?_⟩
    intro vm' mm' ok he
    simp only [dupLoop, Option.some_inj, Prod.mk.injEq] at he
    rw [← he.2.1]
    exact h
  | cons vma vmas ih =>
    unfold dupInserts dupLoop
    by_cases hm : a.vma vma.vm_start = false
    · rw [if_pos hm, if_pos hm]
      refine ⟨fun p hp => (List.not_mem_nil hp).elim, ?_⟩
      intro vm' mm' ok he
      simp only [Option.some_inj, Prod.mk.injEq] at he
      rw [← he.2.1]
      exact h
    · rw [if_neg hm, if_neg hm]
      have hv1 := hv vma List.mem_cons_self
      have hap1 := hap vma List.mem_cons_self
      have hi := insert_vma_struct_eq h.separated hv1 hap1
      obtain ⟨list, hlist⟩ : ∃ list, insert_vma_struct mm.mmap_list vma = some list := ⟨_, hi⟩
      obtain ⟨hok, hperm⟩ := h.linked hv1 hap1 hlist
      -- the areas that are left meet neither the old list nor this area
      have hrest : ∀ v ∈ vmas, ∀ w ∈ (mm.linked list).mmap_list, Apart Vma.lo Vma.hi v w := by
        intro v hvm w hw
        rcases List.mem_cons.1 (hperm.mem_iff.1 hw) with rfl | hw
        · exact ((List.pairwise_cons.1 hvs).1 v hvm).symm
        · exact hap v (List.mem_cons_of_mem vma hvm) w hw
      have ih' (vm1 : Vm) := ih vm1 (mm.linked list) hok
        (fun v hvm => hv v (List.mem_cons_of_mem vma hvm)) (List.pairwise_cons.1 hvs).2 hrest
      simp only [hlist]
      constructor
      · intro p hp
        rcases List.mem_cons.1 hp with rfl | hp
        · exact fun hn => Option.some_ne_none _ (hlist.symm.trans hn)
        · split at hp
          · next vm1 hc => exact (ih' vm1).1 p hp
          · cases hp
      · intro vm' mm' ok he
        split at he
        · cases he
        · simp only [Option.some_inj, Prod.mk.injEq] at he
          rw [← he.2.1]
          exact hok
        · next vm1 hc => exact (ih' vm1).2 vm' mm' ok he

theorem dup_mmap_ok {a : CopyPages} {vm : Vm} {dst src : Mm} (h : ListOk dst) (hs : ListOk src)
    (hap : MmsApart dst src) :
    (∀ p ∈ dupInserts a src.pgdir src.mmap_list.reverse vm dst,
        insert_vma_struct p.1 p.2 ≠ none) ∧
      ∀ vm' dst' ok, dup_mmap a vm dst src = some (vm', dst', ok) → ListOk dst' := by
  apply dupLoop_ok _ _ _ h
  · intro v hv
    exact hs.separated.proper v (List.mem_reverse.1 hv)
  · rw [List.pairwise_reverse]
    exact hs.separated.apart.imp Or.inr
  · intro v hv w hw
    exact (hap w hw v (List.mem_reverse.1 hv)).symm

/-! ## Runs -/

/-- Every memory has a list as it should be. -/
def ListsOk (mms : Nat → Option Mm) : Prop := ∀ i mm, mms i = some mm → ListOk mm

theorem ListsOk.setMm {mms : Nat → Option Mm} (h : ListsOk mms) {mm : Mm} (i : Nat)
    (hm : ListOk mm) : ListsOk (setMm mms i mm) := by
  intro j mm' hj
  unfold kernel.setMm at hj
  split at hj
  · obtain rfl := Option.some_inj.1 hj
    exact hm
  · exact h j mm' hj

theorem ListsOk.step {mms mms' : Nat → Option Mm} (h : ListsOk mms) (op : MmOp)
    (hs : op.step mms = some mms') : ListsOk mms' := by
  cases op with
  | mm_create i pgdir =>
    simp only [MmOp.step] at hs
    split at hs
    · obtain rfl := Option.some_inj.1 hs
      exact h.setMm i (ListOk.create pgdir)
    · cases hs
  | find_vma i addr =>
    obtain ⟨mm, hi, rfl⟩ := Option.map_eq_some_iff.1 hs
    exact h.setMm i ((h i mm hi).find_vma addr)
  | mm_map i addr len vm_flags memory =>
    obtain ⟨mm, hi, hs⟩ := Option.bind_eq_some_iff.1 hs
    obtain ⟨mm', ok, hm, hok⟩ := mm_map_ok (h i mm hi) addr len vm_flags memory
    rw [hm] at hs
    obtain rfl := Option.some_inj.1 hs
    exact h.setMm i hok
  | dup_mmap i j vm a =>
    obtain ⟨dst, hi, hs⟩ := Option.bind_eq_some_iff.1 hs
    obtain ⟨src, hj, hs⟩ := Option.bind_eq_some_iff.1 hs
    split at hs
    · next hap =>
      obtain ⟨⟨vm', dst', ok⟩, hd, rfl⟩ := Option.map_eq_some_iff.1 hs
      exact h.setMm i ((dup_mmap_ok (h i dst hi) (h j src hj) hap).2 vm' dst' ok hd)
    · cases hs

/-- After any operations on the memories the list of each is sorted and its areas are not empty
and do not meet, `map_count` counts them, no insert fails an assertion, and `find_vma` gives the
area that ends lowest above the address, whatever area earlier lookups left in the cache. -/
theorem vma_lists_ok (ops : List MmOp) (mms : Nat → Option Mm)
    (h : ops.foldlM MmOp.step (fun _ => none) = some mms) (i : Nat) (mm : Mm)
    (hi : mms i = some mm) :
    mm.mmap_list.Pairwise (fun v w => v.vm_start < w.vm_start) ∧
    mm.mmap_list.Pairwise (fun v w => v.vm_end ≤ w.vm_start) ∧
    (∀ v ∈ mm.mmap_list, v.vm_start < v.vm_end) ∧
    mm.map_count = mm.mmap_list.length ∧
    (∀ addr len vm_flags memory, mm_map mm addr len vm_flags memory ≠ none) ∧
    (∀ j src vm a, mms j = some src → MmsApart mm src →
      ∀ p ∈ dupInserts a src.pgdir src.mmap_list.reverse vm mm,
        insert_vma_struct p.1 p.2 ≠ none) ∧
    ∀ cache, (∀ v, cache = some v → v ∈ mm.mmap_list) → ∀ addr,
      (∀ v, (find_vma { mm with mmap_cache := cache } addr).1 = some v ↔
        v ∈ mm.mmap_list ∧ addr < v.vm_end ∧
          ∀ w ∈ mm.mmap_list, addr < w.vm_end → w = v ∨ v.vm_end < w.vm_end) ∧
      ((find_vma { mm with mmap_cache := cache } addr).1 = none ↔
        ∀ v ∈ mm.mmap_list, v.vm_end ≤ addr) := by
  have hall : ListsOk mms := by
    refine @invariant_of_partialRun _ _ _ ListsOk (fun s op s' hs he => hs.step op he) _ _ _ ?_ h
    intro j mm' hj
    cases hj
  have hok := hall i mm hi
  refine ⟨hok.separated.sorted, hok.separated.apart, hok.separated.proper, hok.count, ?_, ?_, ?_⟩
  · intro addr len vm_flags memory hn
    obtain ⟨mm', ok, hm, -⟩ := mm_map_ok hok addr len vm_flags memory
    rw [hm] at hn
    cases hn
  · intro j src vm a hj hap
    exact (dup_mmap_ok hok (hall j src hj) hap).1
  · intro cache hcache addr
    have hok' : ListOk { mm with mmap_cache := cache } := ⟨hok.separated, hok.count, hcache⟩
    rw [find_vma_eq hok' addr]
    constructor
    · intro v
      exact hok.separated.find?_eq_some addr.toNat v
    · rw [List.find?_eq_none]
      simp only [decide_eq_true_eq, Nat.not_lt]
      rfl

/-- A program's memory with two areas, and a copy of it. -/
def copyOfTwo : List MmOp :=
  let pages : CopyPages := ⟨fun _ => none, fun _ => true, fun _ => true⟩
  let vm : Vm := ⟨fun _ => 0#63, fun _ => Pgdir.empty, 0, fun _ => false⟩
  [.mm_create 0 1,
    .mm_map 0 0x10000000#32 0x800#32 (VM_READ ||| VM_EXEC) true,
    .mm_map 0 0x7FFFF000#32 0x1000#32 (VM_READ ||| VM_WRITE) true,
    .find_vma 0 0x7FFFF800#32,
    .mm_map 0 0x10000000#32 0x1000#32 VM_READ true,
    .mm_create 1 2,
    .dup_mmap 1 0 vm pages]

theorem vma_lists_ok_copyOfTwo : ∃ mms mm,
    copyOfTwo.foldlM MmOp.step (fun _ => none) = some mms ∧ mms 1 = some mm ∧
      mm.mmap_list.length = 2 ∧ mm.map_count = mm.mmap_list.length := by
  have h : ((copyOfTwo.foldlM MmOp.step (fun _ => none)).bind fun mms => mms 1).map
      (fun mm => mm.mmap_list.length) = some 2 := by decide +kernel
  obtain ⟨mm, hb, hl⟩ := Option.map_eq_some_iff.1 h
  obtain ⟨mms, hm, hi⟩ := Option.bind_eq_some_iff.1 hb
  exact ⟨mms, mm, hm, hi, hl, (vma_lists_ok copyOfTwo mms hm 1 mm hi).2.2.2.1⟩

end nehcpu.kernel
