-- The entries of a page table stand inside the memory areas: what `vmm.c` keeps, and what
-- that gives at the end of a memory, where the areas are unmapped one by one.
import Nehcpu.Kernel.PageEdits
import Nehcpu.Kernel.Process

namespace nehcpu.kernel

open cpu

/-- An area of whole pages of the user segment. -/
structure VmaOk (vma : Vma) : Prop where
  start : pageAligned vma.vm_start
  stop : pageAligned vma.vm_end
  user : USER_ACCESS vma.vm_start vma.vm_end

/-- The page directory of a memory holds present entries only, all of them in its areas. -/
structure MmOk (pd : Pgdir) (mm : Mm) : Prop where
  ptes : PtesOk pd
  covered : ∀ la, pteAt pd la ≠ 0#32 → ∃ vma ∈ mm.mmap_list, vma.vm_start ≤ la ∧ la < vma.vm_end
  areas : ∀ vma ∈ mm.mmap_list, VmaOk vma
  cache : ∀ vma, mm.mmap_cache = some vma → vma ∈ mm.mmap_list

/-- Mapped addresses are user addresses. -/
theorem MmOk.userAddr {pd : Pgdir} {mm : Mm} (h : MmOk pd mm) {la : Word}
    (hla : pteAt pd la ≠ 0#32) : UserAddr la := by
  obtain ⟨vma, hv, -, hlt⟩ := h.covered la hla
  have h1 : la.toNat < vma.vm_end.toNat := hlt
  have h2 : vma.vm_end.toNat ≤ 2147483648 := (h.areas vma hv).user.2.2
  exact Nat.lt_of_lt_of_le h1 h2

/-- The areas and the cache are all that matters of the memory. -/
theorem MmOk.congr {pd : Pgdir} {mm mm' : Mm} (h : MmOk pd mm)
    (hl : mm'.mmap_list = mm.mmap_list) (hc : mm'.mmap_cache = mm.mmap_cache) : MmOk pd mm' := by
  refine ⟨h.ptes, ?_, ?_, ?_⟩
  · rw [hl]
    exact h.covered
  · rw [hl]
    exact h.areas
  · rw [hl, hc]
    exact h.cache

theorem MmOk.create (pgdir : Nat) : MmOk Pgdir.empty (mm_create pgdir) := by
  have hz (la : Word) : pteAt Pgdir.empty la = 0#32 := rfl
  refine ⟨fun la h => absurd (hz la) h, fun la h => absurd (hz la) h, ?_, ?_⟩
  · intro vma hv
    cases hv
  · intro vma hv
    cases hv

theorem MmOk.shrinks {mm : Mm} {f : Nat} {vm vm' : Vm} (h : MmOk (vm.pgdirs f) mm)
    (hs : Shrinks f vm vm') : MmOk (vm'.pgdirs f) mm := by
  refine ⟨hs.ptesOk h.ptes, ?_, h.areas, h.cache⟩
  intro la hla
  refine h.covered la ?_
  intro hz
  exact hla (hs.zero hz)

/-- Entries made inside an area keep the memory as it should be. -/
theorem MmOk.fills {mm : Mm} {f : Nat} {vm vm' : Vm} {vma : Vma} (h : MmOk (vm.pgdirs f) mm)
    (hv : vma ∈ mm.mmap_list) (hf : Fills f vma.vm_start vma.vm_end vm vm') :
    MmOk (vm'.pgdirs f) mm := by
  refine ⟨hf.ptesOk h.ptes, ?_, h.areas, h.cache⟩
  intro la hla
  rcases hf.entries la with he | ⟨hlo, hlt, -⟩
  · rw [he] at hla
    exact h.covered la hla
  · exact ⟨vma, hv, hlo, hlt⟩

/-- An insert at a page of an area. -/
theorem MmOk.page_insert {mm : Mm} {f : Nat} {vm vm' : Vm} {page : BitVec 20} {la perm : Word}
    {create : Bool} (h : MmOk (vm.pgdirs f) mm) (hla : InAreas mm la)
    (hi : page_insert vm f page la perm create = some vm') : MmOk (vm'.pgdirs f) mm := by
  obtain ⟨hal, vma, hv, hlo, hlt⟩ := hla
  exact h.fills hv (page_insert_fills hi (toNat_of_pageAligned hal)
    (toNat_of_pageAligned (h.areas vma hv).stop) hlo hlt)

/-! ## Areas -/

theorem mem_insert_vma_struct {list list' : List Vma} {vma : Vma}
    (h : insert_vma_struct list vma = some list') (w : Vma) :
    w ∈ list' ↔ w = vma ∨ w ∈ list := by
  unfold insert_vma_struct at h
  simp only at h
  split at h
  · obtain rfl := Option.some_inj.1 h
    have hsplit := List.takeWhile_append_dropWhile (p := fun v => decide (v.vm_start ≤ vma.vm_start))
      (l := list)
    conv => rhs; rw [← hsplit]
    rw [List.mem_append, List.mem_cons, List.mem_append]
    exact or_left_comm
  · cases h

/-- One more area. -/
theorem MmOk.insert {pd : Pgdir} {mm : Mm} {list : List Vma} {vma : Vma} (h : MmOk pd mm)
    (hv : VmaOk vma) (hi : insert_vma_struct mm.mmap_list vma = some list) :
    MmOk pd (mm.linked list) := by
  have hmem := mem_insert_vma_struct hi
  refine ⟨h.ptes, ?_, ?_, ?_⟩
  · intro la hla
    obtain ⟨w, hw, hr⟩ := h.covered la hla
    exact ⟨w, (hmem w).2 (Or.inr hw), hr⟩
  · intro w hw
    rcases (hmem w).1 hw with rfl | hw
    · exact hv
    · exact h.areas w hw
  · intro w hw
    exact (hmem w).2 (Or.inr (h.cache w hw))

/-- `find_vma` finds an area that ends above the address, and only the cache changes. -/
theorem find_vma_spec {pd : Pgdir} {mm : Mm} (h : MmOk pd mm) (addr : Word) :
    MmOk pd (find_vma mm addr).2 ∧ (find_vma mm addr).2.mmap_list = mm.mmap_list ∧
      (find_vma mm addr).2.pgdir = mm.pgdir ∧ (find_vma mm addr).2.mm_count = mm.mm_count ∧
      ∀ vma, (find_vma mm addr).1 = some vma → vma ∈ mm.mmap_list ∧ addr < vma.vm_end := by
  obtain ⟨found, hfound⟩ : ∃ found, found = (find_vma mm addr).1 := ⟨_, rfl⟩
  have hmem : ∀ vma, found = some vma → vma ∈ mm.mmap_list ∧ addr < vma.vm_end := by
    intro vma hv
    rw [hfound] at hv
    unfold find_vma at hv
    simp only at hv
    rcases Option.or_eq_some_iff.1 hv with hc | ⟨-, hl⟩
    · obtain ⟨hc, hr⟩ := Option.filter_eq_some_iff.1 hc
      exact ⟨h.cache vma hc, (of_decide_eq_true hr).2⟩
    · have hlt := List.find?_some hl
      exact ⟨List.mem_of_find?_eq_some hl, of_decide_eq_true hlt⟩
  have hmm : (find_vma mm addr).2 = if found.isSome then { mm with mmap_cache := found } else mm := by
    rw [hfound]
    rfl
  rw [← hfound, hmm]
  split
  · refine ⟨⟨h.ptes, h.covered, h.areas, ?_⟩, rfl, rfl, rfl, hmem⟩
    intro vma hv
    exact (hmem vma hv).1
  · exact ⟨h, rfl, rfl, rfl, hmem⟩

theorem pageAligned_of_toNat {a : Word} (h : a.toNat % 4096 = 0) : pageAligned a := by
  apply BitVec.eq_of_toNat_eq
  rw [BitVec.toNat_umod]
  exact h

theorem pageAligned_ROUNDDOWN (a : Word) : pageAligned (ROUNDDOWN_2N a PGSHIFT) := by
  apply pageAligned_of_toNat
  rw [toNat_page]
  exact Nat.mul_mod_left _ _

theorem mm_map_spec {pd : Pgdir} {mm mm' : Mm} {addr len vm_flags : Word} {memory ok : Bool}
    (h : MmOk pd mm) (hm : mm_map mm addr len vm_flags memory = some (mm', ok)) :
    MmOk pd mm' ∧ mm'.pgdir = mm.pgdir ∧ mm'.mm_count = mm.mm_count := by
  obtain ⟨hok, -, hp, hc, -⟩ := find_vma_spec h (ROUNDDOWN_2N addr PGSHIFT)
  unfold mm_map at hm
  simp only at hm
  split at hm
  · simp only [Option.some_inj, Prod.mk.injEq] at hm
    obtain ⟨rfl, -⟩ := hm
    exact ⟨h, rfl, rfl⟩
  · next hu =>
    split at hm
    · simp only [Option.some_inj, Prod.mk.injEq] at hm
      obtain ⟨rfl, -⟩ := hm
      exact ⟨hok, hp, hc⟩
    split at hm
    · simp only [Option.some_inj, Prod.mk.injEq] at hm
      obtain ⟨rfl, -⟩ := hm
      exact ⟨hok, hp, hc⟩
    · split at hm
      · cases hm
      · next list hi =>
        simp only [Option.some_inj, Prod.mk.injEq] at hm
        obtain ⟨rfl, -⟩ := hm
        have hv : VmaOk ⟨ROUNDDOWN_2N addr PGSHIFT, ROUNDUP_2N (addr + len) PGSHIFT, vm_flags⟩ :=
          ⟨pageAligned_ROUNDDOWN addr, pageAligned_ROUNDDOWN _, not_not.1 hu⟩
        exact ⟨hok.insert hv hi, hp, hc⟩

/-! ## The end of a memory -/

theorem unmap_areas {f : Nat} : ∀ (vmas : List Vma) (vm vm' : Vm),
    vmas.foldlM (fun vm vma => unmap_range vm f vma.vm_start vma.vm_end) vm = some vm' →
    PtesOk (vm.pgdirs f) →
    Edit f vm vm' ∧ Shrinks f vm vm' ∧
      ∀ vma ∈ vmas, ∀ la : Word, vma.vm_start ≤ la → la < vma.vm_end →
        pteAt (vm'.pgdirs f) la = 0#32 := by
  intro vmas
  induction vmas with
  | nil =>
    intro vm vm' h _
    obtain rfl : vm = vm' := Option.some_inj.1 h
    exact ⟨Edit.refl f vm, Shrinks.refl f vm, by simp⟩
  | cons vma vmas ih =>
    intro vm vm' h hok
    rw [List.foldlM_cons] at h
    obtain ⟨vm1, hu, hr⟩ := Option.bind_eq_some_iff.1 h
    obtain ⟨he, hs, hz⟩ := unmap_range_spec hu hok
    obtain ⟨he', hs', hz'⟩ := ih vm1 vm' hr (hs.ptesOk hok)
    refine ⟨he.trans he', hs.trans hs', ?_⟩
    intro w hw la hlo hlt
    rcases List.mem_cons.1 hw with rfl | hw
    · exact hs'.zero (hz la hlo hlt)
    · exact hz' w hw la hlo hlt

theorem exit_areas {f : Nat} : ∀ (vmas : List Vma) (vm vm' : Vm),
    vmas.foldlM (fun vm vma => exit_range vm f vma.vm_start vma.vm_end) vm = some vm' →
    (∀ la, pteAt (vm.pgdirs f) la = 0#32) →
    Edit f vm vm' ∧ ∀ la, pteAt (vm'.pgdirs f) la = 0#32 := by
  intro vmas
  induction vmas with
  | nil =>
    intro vm vm' h hz
    obtain rfl : vm = vm' := Option.some_inj.1 h
    exact ⟨Edit.refl f vm, hz⟩
  | cons vma vmas ih =>
    intro vm vm' h hz
    rw [List.foldlM_cons] at h
    obtain ⟨vm1, hu, hr⟩ := Option.bind_eq_some_iff.1 h
    obtain ⟨he, hz1⟩ := exit_range_spec hu hz
    obtain ⟨he', hz'⟩ := ih vm1 vm' hr hz1
    exact ⟨he.trans he', hz'⟩

/-- `exit_mmap` leaves no entry, so it flushed the TLB unless there was none before. -/
theorem exit_mmap_spec {vm vm' : Vm} {mm : Mm} (h : exit_mmap vm mm = some vm')
    (hok : MmOk (vm.pgdirs mm.pgdir) mm) :
    Edit mm.pgdir vm vm' ∧ ∀ la, pteAt (vm'.pgdirs mm.pgdir) la = 0#32 := by
  unfold exit_mmap at h
  split at h
  · obtain ⟨vm1, hu, hx⟩ := Option.bind_eq_some_iff.1 h
    obtain ⟨he, hs, hz⟩ := unmap_areas _ _ _ hu hok.ptes
    have hz1 : ∀ la, pteAt (vm1.pgdirs mm.pgdir) la = 0#32 := by
      intro la
      by_cases hla : pteAt (vm.pgdirs mm.pgdir) la = 0#32
      · exact hs.zero hla
      · obtain ⟨vma, hv, hlo, hlt⟩ := hok.covered la hla
        exact hz vma hv la hlo hlt
    obtain ⟨he', hz'⟩ := exit_areas _ _ _ hx hz1
    exact ⟨he.trans he', hz'⟩
  · cases h

/-! ## The copy of a memory -/

theorem dupLoop_spec {a : CopyPages} {src : Nat} : ∀ (vmas : List Vma) (vm vm' : Vm) (mm mm' : Mm)
    (ok : Bool), dupLoop a src vmas vm mm = some (vm', mm', ok) → (∀ vma ∈ vmas, VmaOk vma) →
    MmOk (vm.pgdirs mm.pgdir) mm →
    mm'.pgdir = mm.pgdir ∧ mm'.mm_count = mm.mm_count ∧ Edit mm.pgdir vm vm' ∧
      MmOk (vm'.pgdirs mm.pgdir) mm' := by
  intro vmas
  induction vmas with
  | nil =>
    intro vm vm' mm mm' ok h _ hok
    simp only [dupLoop, Option.some_inj, Prod.mk.injEq] at h
    obtain ⟨rfl, rfl, -⟩ := h
    exact ⟨rfl, rfl, Edit.refl _ vm, hok⟩
  | cons vma vmas ih =>
    intro vm vm' mm mm' ok h hv hok
    unfold dupLoop at h
    split at h
    · simp only [Option.some_inj, Prod.mk.injEq] at h
      obtain ⟨rfl, rfl, -⟩ := h
      exact ⟨rfl, rfl, Edit.refl _ _, hok⟩
    · split at h
      · cases h
      · next list hi =>
        have hmem : vma ∈ list := (mem_insert_vma_struct hi vma).2 (Or.inl rfl)
        have hok1 := hok.insert (hv vma List.mem_cons_self) hi
        simp only at h
        split at h
        · cases h
        · next vm1 hc =>
          have hf := copy_range_fills hc
          simp only [Option.some_inj, Prod.mk.injEq] at h
          obtain ⟨rfl, rfl, -⟩ := h
          exact ⟨rfl, rfl, hf.edit, hok1.fills hmem hf⟩
        · next vm1 hc =>
          have hf := copy_range_fills hc
          obtain ⟨hp, hn, he, hok2⟩ := ih vm1 vm' (mm.linked list) mm' ok h
            (fun w hw => hv w (List.mem_cons_of_mem vma hw)) (hok1.fills hmem hf)
          exact ⟨hp, hn, hf.edit.trans he, hok2⟩

/-! ## The page fault -/

theorem do_pgfault_spec {a : FaultPages} {vm : Vm} {mm : Mm} {error_code : Nat} {addr : Word}
    (hok : MmOk (vm.pgdirs mm.pgdir) mm) :
    (do_pgfault a vm mm error_code addr).2.1.pgdir = mm.pgdir ∧
      (do_pgfault a vm mm error_code addr).2.1.mm_count = mm.mm_count ∧
      Edit mm.pgdir vm (do_pgfault a vm mm error_code addr).1 ∧
      MmOk ((do_pgfault a vm mm error_code addr).1.pgdirs mm.pgdir)
        (do_pgfault a vm mm error_code addr).2.1 := by
  have hfind := find_vma_spec hok addr
  unfold do_pgfault
  obtain ⟨found, mm1, hr⟩ : ∃ found mm1, find_vma mm addr = (found, mm1) := ⟨_, _, rfl⟩
  rw [hr] at hfind ⊢
  obtain ⟨hok1, hl, hp, hc, hmem⟩ := hfind
  simp only at hok1 hl hp hc hmem ⊢
  rw [← hp] at hok1 ⊢
  -- whatever fails, the entries stay
  have hstay : mm1.pgdir = mm1.pgdir ∧ mm1.mm_count = mm.mm_count ∧ Edit mm1.pgdir vm vm ∧
      MmOk (vm.pgdirs mm1.pgdir) mm1 := ⟨rfl, hc, Edit.refl _ vm, hok1⟩
  split
  · exact hstay
  · next vma =>
    obtain ⟨hv, hlt⟩ := hmem vma rfl
    split
    · exact hstay
    · next hn =>
      rw [not_or, BitVec.not_lt] at hn
      split
      · exact hstay
      · next pd hg =>
        have hpte : ∀ la, pteAt ((vm.setPgdir mm1.pgdir pd).pgdirs mm1.pgdir) la =
            pteAt (vm.pgdirs mm1.pgdir) la := by
          intro la
          rw [pgdirs_setPgdir, if_pos rfl, pteAt_get_pte hg]
        have hfill : Fills mm1.pgdir vma.vm_start vma.vm_end vm (vm.setPgdir mm1.pgdir pd) := by
          refine ⟨⟨?_, rfl, rfl, Or.inr ⟨rfl, hpte⟩⟩, fun la => Or.inl (hpte la)⟩
          intro g hne
          rw [pgdirs_setPgdir, if_neg hne]
        have hvl : vma ∈ mm1.mmap_list := by
          rw [hl]
          exact hv
        have hstay' : mm1.pgdir = mm1.pgdir ∧ mm1.mm_count = mm.mm_count ∧
            Edit mm1.pgdir vm (vm.setPgdir mm1.pgdir pd) ∧
            MmOk ((vm.setPgdir mm1.pgdir pd).pgdirs mm1.pgdir) mm1 :=
          ⟨rfl, hc, hfill.edit, hok1.fills hvl hfill⟩
        split
        · split
          · exact hstay'
          · next page _ =>
            split
            · exact hstay'
            · next vm1 hi =>
              -- the page of the address lies in its area
              have hvok := hok1.areas vma hvl
              have hlo : vma.vm_start.toNat ≤ (ROUNDDOWN_2N addr PGSHIFT).toNat := by
                have h1 : vma.vm_start.toNat ≤ addr.toNat := hn.1
                have h2 := toNat_of_pageAligned hvok.start
                rw [toNat_page]
                omega
              have hhi : (ROUNDDOWN_2N addr PGSHIFT).toNat < vma.vm_end.toNat := by
                have h1 : addr.toNat < vma.vm_end.toNat := hlt
                rw [toNat_page]
                omega
              have hf := page_insert_fills hi (toNat_of_pageAligned (pageAligned_ROUNDDOWN addr))
                (toNat_of_pageAligned hvok.stop) hlo hhi
              exact ⟨rfl, hc, (hfill.trans hf).edit, hok1.fills hvl (hfill.trans hf)⟩
        · exact hstay'

end nehcpu.kernel
