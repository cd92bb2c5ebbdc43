-- A memory that is being made: it has only frames that were free before, and all that is taken
-- meanwhile is in its areas. So the memory can be given up at any point.
import Nehcpu.Kernel.LoadIcode
import Nehcpu.Kernel.MapRange

namespace nehcpu.kernel.frames

open cpu refcount Function

/-! ## `pgdir_alloc_page` where no page is mapped -/

/-- The page got the entry of the address, in the page table `t`, which is new or was there. -/
structure PageAdded (d : Nat) (la perm : Word) (page t : Page) (s s' : Frames) : Prop where
  settled : Settled s'
  dirs : s'.dirs = s.dirs
  pgdirs : ∀ d', d' ≠ d → s'.pgdirs d' = s.pgdirs d'
  fresh : s.free page = true
  notTable : ¬ s'.IsTable page
  table : ∀ i, s'.table d i = if i = PDX la then some t else s.table d i
  tableFresh : s.table d (PDX la) = some t ∨ (s.table d (PDX la) = none ∧ s.free t = true)
  free : ∀ p, s'.free p = false ↔ s.free p = false ∨ p = page ∨ p = t
  mem : ∀ p, p ≠ t → s'.mem p = s.mem p
  ref : ∀ p, s.free p = false → s'.ref p = s.ref p
  pageRef : s'.ref page = 1
  pte : ∀ la', s'.pte d la' = if SamePage la' la then page2pa page ||| PTE_P ||| perm else s.pte d la'

section

variable {A : Allocator} {s : Frames} {d : Nat} {la perm : Word}

theorem free_taken (s : Frames) (page p : Page) :
    (s.taken page).free p = false ↔ s.free p = false ∨ p = page := by
  show update s.free page false p = false ↔ _
  rw [update_apply]
  split
  · next he => simp only [he, or_true]
  · next hne => simp only [hne, or_false]

/-- The end of `page_insert`, with the page table in place. -/
theorem PageAdded.of_store {s1 : Frames} (h1 : Settled s1) (hd : d ∈ s1.dirs) {page t : Page}
    (hf : s1.free page = false) (hr : s1.ref page = 0) (hn : ¬ s1.IsTable page)
    (ht : s1.table d (PDX la) = some t) (ha : s1.pte d la = 0#32) (hperm : perm < PGSIZE) :
    let s' := (page_ref_inc s1 page).store ⟨t, PTX la⟩ (page2pa page ||| PTE_P ||| perm)
    Settled s' ∧ (∀ la', s'.pte d la' =
      if SamePage la' la then page2pa page ||| PTE_P ||| perm else s1.pte d la') ∧
      s'.ref page = 1 ∧ (∀ p, p ≠ page → s'.ref p = s1.ref p) ∧
      ∀ p, p ≠ t → s'.mem p = s1.mem p := by
  intro s'
  have hp : IsPte (page_ref_inc s1 page) d la ⟨t, PTX la⟩ := ⟨hd, ht, rfl⟩
  have hent := entryPage_insert page hperm
  have hload : (page_ref_inc s1 page).load ⟨t, PTX la⟩ = 0#32 := by
    rw [← ha, pte_eq ht]
    rfl
  have hinc := h1.inc hn hf
  refine ⟨(hinc.store hp ?_).congr ?_, pte_store hinc.distinct hp _, ?_, ?_, ?_⟩
  · intro q hq
    rw [hent] at hq
    obtain rfl := Option.some_inj.1 hq
    exact hn
  · intro p
    rw [hload, hent, entryPage_zero, holds_none]
    omega
  · show update s1.ref page (s1.ref page + 1) page = 1
    rw [update_self, hr]
    rfl
  · intro p hne
    exact update_of_ne hne _ _
  · intro p hne
    exact update_of_ne hne _ _

/-- A page that was taken for the address, where the page table is there. -/
theorem PageAdded.of_taken (h : Settled s) (hd : d ∈ s.dirs) {page t : Page}
    (hf : s.free page = true) (ht : s.table d (PDX la) = some t) (ha : s.pte d la = 0#32)
    (hperm : perm < PGSIZE) : PageAdded d la perm page t s
      ((page_ref_inc (s.taken page) page).store ⟨t, PTX la⟩ (page2pa page ||| PTE_P ||| perm)) := by
  have hn := h.not_table hf
  have hr1 : (s.taken page).ref page = 0 := h.free hf
  obtain ⟨hok, hpte, hrp, hr, hm⟩ :=
    PageAdded.of_store (h.taken page) hd (taken_self s page) hr1 hn ht ha hperm
  refine ⟨hok, rfl, fun _ _ => rfl, hf, hn, ?_, Or.inl ht, ?_, hm, ?_, hrp, hpte⟩
  · intro i
    split
    · next he =>
      rw [he]
      exact ht
    · rfl
  · intro p
    have htf := (h.table ⟨d, hd, _, PDX_lt la, ht⟩).2.1
    refine Iff.trans (free_taken s page p) ?_
    constructor
    · rintro (hp | rfl)
      · exact Or.inl hp
      · exact Or.inr (Or.inl rfl)
    · rintro (hp | rfl | rfl)
      · exact Or.inl hp
      · exact Or.inr rfl
      · exact Or.inl htf
  · intro p hp
    apply hr
    rintro rfl
    rw [hf] at hp
    cases hp

theorem pgdir_alloc_page_added (h : Settled s) (hd : d ∈ s.dirs) (ha : s.pte d la = 0#32)
    (hperm : perm < PGSIZE) :
    (∃ tick, pgdir_alloc_page A s d la perm = (none, { s with tick := tick })) ∨
      ∃ page t s', pgdir_alloc_page A s d la perm = (some page, s') ∧
        PageAdded d la perm page t s s' := by
  unfold pgdir_alloc_page
  rcases alloc_page_cases A s with hal | ⟨page, hf, hal⟩
  · left
    rw [hal]
    exact ⟨_, rfl⟩
  · rw [hal]
    simp only
    have h1 := h.taken page
    have hn := h.not_table hf
    have hf1 := taken_self s page
    have hr1 : (s.taken page).ref page = 0 := h.free hf
    unfold page_insert
    rcases get_pte_cases A (s.taken page) d la true with
      ⟨t, ht, hg⟩ | ⟨-, tick, hg⟩ | ⟨htn, -, t, hft, hg⟩
    · -- the page table is there
      right
      have hload : (page_ref_inc (s.taken page) page).load ⟨t, PTX la⟩ = 0#32 := by
        rw [← ha, @pte_eq s d la t ht]
        rfl
      have hpres : ptep_present 0#32 = false := rfl
      rw [hg]
      simp only [hload, hpres, Bool.false_eq_true, if_false]
      exact ⟨page, t, _, rfl, PageAdded.of_taken h hd hf ht ha hperm⟩
    · -- no page table, and no page for one: the page goes back
      left
      rw [hg]
      refine ⟨tick, ?_⟩
      have hfree : update (update s.free page false) page true = s.free := by
        rw [update_idem, ← hf, update_eq_self]
      have href : update s.ref page 0 = s.ref := by
        rw [← h.free hf, update_eq_self]
      unfold free_page Frames.taken
      simp only [hfree, href]
    · -- a new page table
      right
      have htt : t ≠ page := by
        rintro rfl
        rw [hf1] at hft
        cases hft
      have htf : s.free t = true := by
        rw [← hft]
        exact (update_of_ne htt _ _).symm
      obtain ⟨s2, hs2⟩ : ∃ s2, s2 = newTable ((s.taken page).taken t) d la t := ⟨_, rfl⟩
      have h2 : Settled s2 := by
        rw [hs2]
        exact h1.newTable hd htn hft
      have hfree2 : ∀ p, s2.free p = false ↔ s.free p = false ∨ p = page ∨ p = t := by
        intro p
        have hs : s2.free = ((s.taken page).taken t).free := by rw [hs2]; rfl
        rw [hs, free_taken, free_taken, or_assoc]
      have hkept := get_pte_kept (s := s.taken page) h1 hd hg
      have hpte2 : ∀ la', s2.pte d la' = s.pte d la' := by
        intro la'
        rw [hs2]
        exact hkept.2.2.1 la'
      have hd2 : d ∈ s2.dirs := by
        rw [hs2]
        exact hd
      have ht2 : ∀ i, s2.table d i = if i = PDX la then some t else s.table d i := by
        intro i
        rw [hs2, table_newTable]
        simp only [true_and]
        rfl
      have htab : s2.table d (PDX la) = some t := by
        rw [ht2, if_pos rfl]
      have hn2 : ¬ s2.IsTable page := by
        rw [hs2, isTable_newTable (s := s.taken page) hd htn]
        rintro (he | hp)
        · exact htt he.symm
        · exact hn hp
      have hr2 : ∀ p, p ≠ t → s2.ref p = s.ref p := by
        intro p hp
        rw [hs2]
        exact update_of_ne hp _ _
      have ha2 : s2.pte d la = 0#32 := by rw [hpte2, ha]
      have hload : (page_ref_inc s2 page).load ⟨t, PTX la⟩ = 0#32 := by
        rw [← ha2, pte_eq htab]
        rfl
      have hpres : ptep_present 0#32 = false := rfl
      have hrp2 : s2.ref page = 0 := by
        rw [hr2 page htt.symm, h.free hf]
      obtain ⟨hok, hpte, hrp, hr, hm⟩ := PageAdded.of_store h2 hd2
        ((hfree2 page).2 (Or.inr (Or.inl rfl))) hrp2 hn2 htab ha2 hperm
      rw [hg]
      simp only [← hs2, hload, hpres, Bool.false_eq_true, if_false]
      refine ⟨page, t, _, rfl, hok, ?_, ?_, hf, hn2, ht2, Or.inr ⟨htn, htf⟩, hfree2, ?_, ?_, hrp, ?_⟩
      · show s2.dirs = s.dirs
        rw [hs2]
        rfl
      · intro d' hne
        show s2.pgdirs d' = s.pgdirs d'
        rw [hs2]
        exact update_of_ne hne _ _
      · intro p hp
        rw [hm p hp, hs2, mem_newTable hp]
        rfl
      · intro p hp
        rw [hr p, hr2 p]
        · rintro rfl
          rw [htf] at hp
          cases hp
        · rintro rfl
          rw [hf] at hp
          cases hp
      · intro la'
        rw [hpte la', hpte2]

end

/-! ## The memory that is being made -/

/-- What `s0` had is untouched, the directory `d` is new, and everything that was free and is taken
now is a page table of `d` or is mapped by it, once, in the areas of `mm`. -/
structure Building (s0 : Frames) (d : Nat) (s : Frames) (mm : Mm) : Prop where
  settled : Settled s
  fresh : d ∉ s0.dirs
  dirs : s.dirs = insert d s0.dirs
  pgdir : mm.pgdir = d
  others : ∀ d', d' ≠ d → s.pgdirs d' = s0.pgdirs d'
  taken : ∀ p, s0.free p = false → s.free p = false ∧ s.ref p = s0.ref p ∧ s.mem p = s0.mem p
  owned : ∀ p, s0.free p = true → s.free p = false →
    (∃ i < 1024, s.table d i = some p) ∨ ∃ la, entryPage (s.pte d la) = some p
  tables : ∀ i < 1024, ∀ t, s.table d i = some t →
    s0.free t = true ∧ ∃ la, InVmas mm.mmap_list la ∧ PDX la = i
  mapped : ∀ la p, entryPage (s.pte d la) = some p →
    s0.free p = true ∧ InVmas mm.mmap_list la ∧ s.ref p = 1
  count : mm.mm_count = 0
  list : ListOk mm
  areas : ∀ vma ∈ mm.mmap_list, VmaOk vma

section

variable {s0 s s' : Frames} {d : Nat} {mm : Mm} {la perm : Word} {page t : Page}

theorem Building.dir (b : Building s0 d s mm) : d ∈ s.dirs := by
  rw [b.dirs]
  exact Finset.mem_insert_self d s0.dirs

/-- A frame that is free was free before. -/
theorem Building.free (b : Building s0 d s mm) {p : Page} (hp : s.free p = true) :
    s0.free p = true := by
  rw [← Bool.not_eq_false]
  intro hf
  rw [(b.taken p hf).1] at hp
  cases hp

/-- The frame of an entry is taken, and it has no page table. -/
theorem Building.frame (b : Building s0 d s mm) {p : Page}
    (hp : entryPage (s.pte d la) = some p) : s.free p = false ∧ ¬ s.IsTable p := by
  obtain ⟨hpres, rfl⟩ := entryPage_eq_some.1 hp
  exact b.settled.pte_mapped b.dir hpres

theorem Building.start (h : Settled s0) (hd : d ∉ s0.dirs) :
    Building s0 d (setup_pgdir s0 d) (mm_create d) := by
  have htab : ∀ i, (setup_pgdir s0 d).table d i = none := by
    intro i
    show entryPage (update s0.pgdirs d (fun _ => 0#32) d i) = none
    rw [update_self]
    exact entryPage_zero
  have hpte : ∀ la, (setup_pgdir s0 d).pte d la = 0#32 := by
    intro la
    unfold Frames.pte
    rw [htab]
  refine ⟨(setup_pgdir_spec h hd).1, hd, rfl, rfl, fun d' hne => update_of_ne hne _ _,
    fun p hp => ⟨hp, rfl, rfl⟩, ?_, ?_, ?_, rfl, ListOk.create d, ?_⟩
  · intro p hf ht
    exact absurd (hf.symm.trans ht) (by decide)
  · intro i _ t ht
    rw [htab] at ht
    cases ht
  · intro la p hp
    rw [hpte, entryPage_zero] at hp
    cases hp
  · intro vma hv
    cases hv

/-- The clock of the allocator, and the cache of the last area that was found. -/
theorem Building.tick (b : Building s0 d s mm) (n : Nat) :
    Building s0 d { s with tick := n } mm :=
  ⟨b.settled.tick n, b.fresh, b.dirs, b.pgdir, b.others, b.taken, b.owned, b.tables, b.mapped,
    b.count, b.list, b.areas⟩

theorem Building.sameAreas {mm' : Mm} (b : Building s0 d s mm) (hs : SameAreas mm mm')
    (hl : ListOk mm') : Building s0 d s mm' := by
  refine ⟨b.settled, b.fresh, b.dirs, hs.pgdir.trans b.pgdir, b.others, b.taken, b.owned, ?_, ?_,
    hs.mm_count.trans b.count, hl, ?_⟩
  · rw [hs.mmap_list]
    exact b.tables
  · rw [hs.mmap_list]
    exact b.mapped
  · rw [hs.mmap_list]
    exact b.areas

/-- One more area. -/
theorem Building.area {mm' : Mm} {vma : Vma} (b : Building s0 d s mm)
    (hperm : mm'.mmap_list.Perm (vma :: mm.mmap_list)) (hpg : mm'.pgdir = mm.pgdir)
    (hc : mm'.mm_count = mm.mm_count) (hl : ListOk mm') (hv : VmaOk vma) :
    Building s0 d s mm' := by
  have hin : ∀ {la}, InVmas mm.mmap_list la → InVmas mm'.mmap_list la := by
    rintro la ⟨w, hw, hr⟩
    exact ⟨w, hperm.mem_iff.2 (List.mem_cons_of_mem vma hw), hr⟩
  refine ⟨b.settled, b.fresh, b.dirs, hpg.trans b.pgdir, b.others, b.taken, b.owned, ?_, ?_,
    hc.trans b.count, hl, ?_⟩
  · intro i hi t ht
    obtain ⟨hf, la, hla, hpd⟩ := b.tables i hi t ht
    exact ⟨hf, la, hin hla, hpd⟩
  · intro la p hp
    obtain ⟨hf, hla, hr⟩ := b.mapped la p hp
    exact ⟨hf, hin hla, hr⟩
  · intro w hw
    rcases List.mem_cons.1 (hperm.mem_iff.1 hw) with rfl | hw
    · exact hv
    · exact b.areas w hw

/-- Areas are made of whole pages. -/
theorem InVmas.samePage {vmas : List Vma} (hok : ∀ vma ∈ vmas, VmaOk vma) {la la' : Word}
    (h : InVmas vmas la) (hs : SamePage la' la) : InVmas vmas la' := by
  obtain ⟨vma, hv, hlo, hhi⟩ := h
  have h1 := toNat_of_pageAligned (hok vma hv).start
  have h2 := toNat_of_pageAligned (hok vma hv).stop
  have h3 := (samePage_iff la' la).1 hs
  have h4 : vma.vm_start.toNat ≤ la.toNat := hlo
  have h5 : la.toNat < vma.vm_end.toNat := hhi
  refine ⟨vma, hv, ?_, ?_⟩
  · show vma.vm_start.toNat ≤ la'.toNat
    omega
  · show la'.toNat < vma.vm_end.toNat
    omega

/-- One more page, at an address of an area where there was none. -/
theorem Building.added (b : Building s0 d s mm) (hla : InVmas mm.mmap_list la)
    (ha : s.pte d la = 0#32) (hperm : perm < PGSIZE) (h : PageAdded d la perm page t s s') :
    Building s0 d s' mm := by
  have hent := entryPage_insert page hperm
  have htf : s0.free t = true := by
    rcases h.tableFresh with ht | ⟨-, ht⟩
    · exact (b.tables _ (PDX_lt la) t ht).1
    · exact b.free ht
  refine ⟨h.settled, b.fresh, h.dirs.trans b.dirs, b.pgdir, ?_, ?_, ?_, ?_, ?_, b.count, b.list,
    b.areas⟩
  · intro d' hne
    rw [h.pgdirs d' hne, b.others d' hne]
  · intro p hp
    obtain ⟨hf, hr, hm⟩ := b.taken p hp
    refine ⟨(h.free p).2 (Or.inl hf), (h.ref p hf).trans hr, (h.mem p ?_).trans hm⟩
    rintro rfl
    rw [htf] at hp
    cases hp
  · intro p hp hf
    rcases (h.free p).1 hf with hf | rfl | rfl
    · rcases b.owned p hp hf with ⟨i, hi, ht⟩ | ⟨la0, hm⟩
      · left
        refine ⟨i, hi, ?_⟩
        rw [h.table]
        split
        · next he =>
          subst he
          rcases h.tableFresh with ht' | ⟨ht', -⟩
          · rw [← ht, ht']
          · rw [ht'] at ht
            cases ht
        · exact ht
      · right
        refine ⟨la0, ?_⟩
        rw [h.pte, if_neg]
        · exact hm
        · intro hs
          have hz : s.pte d la0 = s.pte d la := by
            unfold Frames.pte
            rw [hs.1, hs.2]
          rw [hz, ha, entryPage_zero] at hm
          cases hm
    · right
      refine ⟨la, ?_⟩
      rw [h.pte, if_pos ⟨rfl, rfl⟩, hent]
    · left
      refine ⟨PDX la, PDX_lt la, ?_⟩
      rw [h.table, if_pos rfl]
  · intro i hi t' ht'
    rw [h.table] at ht'
    split at ht'
    · next he =>
      obtain rfl := Option.some_inj.1 ht'
      exact ⟨htf, la, hla, he.symm⟩
    · exact b.tables i hi t' ht'
  · intro la' p hp
    rw [h.pte] at hp
    split at hp
    · next hs =>
      rw [hent] at hp
      obtain rfl := Option.some_inj.1 hp
      exact ⟨b.free h.fresh, hla.samePage b.areas hs, h.pageRef⟩
    · obtain ⟨hf, hin, hr⟩ := b.mapped la' p hp
      exact ⟨hf, hin, (h.ref p (b.frame hp).1).trans hr⟩

end

/-! ## What is written into its pages -/

/-- The counts do not look at frames that hold no page table. -/
theorem Settled.of_tables {s s' : Frames} (h : Settled s) (hd : s'.dirs = s.dirs)
    (hp : s'.pgdirs = s.pgdirs) (hr : s'.ref = s.ref) (hf : s'.free = s.free)
    (hm : ∀ p, s.IsTable p → s'.mem p = s.mem p) : Settled s' := by
  have htab : s'.table = s.table := by
    unfold Frames.table
    rw [hp]
  have hslots : s'.slots = s.slots := by
    unfold Frames.slots
    rw [hd]
  have hist : ∀ p, s'.IsTable p ↔ s.IsTable p := by
    intro p
    unfold Frames.IsTable
    rw [hd, htab]
  have hcount : ∀ p, s'.count p = s.count p := by
    intro p
    unfold Frames.count
    rw [hslots]
    apply refs_congr
    rintro ⟨d, i, j⟩ hk
    obtain ⟨hdir, hi, -⟩ := (mem_slots s d i j).1 hk
    unfold Frames.maps
    rw [htab]
    rcases ht : s.table d i with _ | t
    · rfl
    · rw [Option.bind_some, Option.bind_some]
      show entryPage (s'.mem t j) = entryPage (s.mem t j)
      rw [hm t ⟨d, hdir, i, hi, ht⟩]
  refine ⟨?_, ?_, ?_, ?_⟩
  · unfold Distinct
    rw [hd, htab]
    exact h.distinct
  · intro t ht
    rw [hr, hf, hcount]
    exact h.table ((hist t).1 ht)
  · intro p hn
    rw [hr, hcount]
    exact h.user fun ht => hn ((hist p).2 ht)
  · intro p hfree
    rw [hf] at hfree
    rw [hr]
    exact h.free hfree

theorem pte_of_tables {s s' : Frames} {d : Nat} (hd : d ∈ s.dirs) (hp : s'.pgdirs = s.pgdirs)
    (hm : ∀ p, s.IsTable p → s'.mem p = s.mem p) (la : Word) : s'.pte d la = s.pte d la := by
  have htab : s'.table = s.table := by
    unfold Frames.table
    rw [hp]
  unfold Frames.pte
  rw [htab]
  rcases ht : s.table d (PDX la) with _ | t
  · rfl
  · show s'.mem t (PTX la) = s.mem t (PTX la)
    rw [hm t ⟨d, hd, _, PDX_lt la, ht⟩]

section

variable {s0 s : Frames} {d : Nat} {mm : Mm} {page : Page}

/-- A store into a page keeps the entries. -/
theorem pte_putBytes (hn : ¬ s.IsTable page) (hd : d ∈ s.dirs) (off : Nat) (bs : List Byte)
    (la : Word) : (s.putBytes page off bs).pte d la = s.pte d la := by
  obtain ⟨-, hp, -, -, -, hm⟩ := putBytes_rest s page off bs
  apply pte_of_tables hd hp
  intro p hpt
  apply hm
  rintro rfl
  exact hn hpt

theorem Settled.putBytes (h : Settled s) (hn : ¬ s.IsTable page) (off : Nat) (bs : List Byte) :
    Settled (s.putBytes page off bs) := by
  obtain ⟨hd, hp, hr, hf, -, hm⟩ := putBytes_rest s page off bs
  apply h.of_tables hd hp hr hf
  intro p hpt
  apply hm
  rintro rfl
  exact hn hpt

/-- What stands in its pages does not matter. -/
theorem Building.of_tables {s' : Frames} (b : Building s0 d s mm) (hd : s'.dirs = s.dirs)
    (hp : s'.pgdirs = s.pgdirs) (hr : s'.ref = s.ref) (hf : s'.free = s.free)
    (hm : ∀ p, s.IsTable p ∨ s0.free p = false → s'.mem p = s.mem p) :
    Building s0 d s' mm := by
  have hpte := pte_of_tables b.dir hp fun p ht => hm p (Or.inl ht)
  have htab : s'.table = s.table := by
    unfold Frames.table
    rw [hp]
  refine ⟨b.settled.of_tables hd hp hr hf fun p ht => hm p (Or.inl ht), b.fresh, hd.trans b.dirs,
    b.pgdir, ?_, ?_, ?_, ?_, ?_, b.count, b.list, b.areas⟩
  · rw [hp]
    exact b.others
  · intro p hp0
    obtain ⟨h1, h2, h3⟩ := b.taken p hp0
    exact ⟨by rw [hf, h1], by rw [hr, h2], (hm p (Or.inr hp0)).trans h3⟩
  · intro p hp0 hf'
    rw [hf] at hf'
    rw [htab]
    simp only [hpte]
    exact b.owned p hp0 hf'
  · rw [htab]
    exact b.tables
  · intro la p he
    rw [hpte] at he
    rw [hr]
    exact b.mapped la p he

theorem Building.wrote (b : Building s0 d s mm) (hf : s0.free page = true)
    (hn : ¬ s.IsTable page) (off : Nat) (bs : List Byte) :
    Building s0 d (s.putBytes page off bs) mm := by
  obtain ⟨hd, hp, hr, hfree, -, hm⟩ := putBytes_rest s page off bs
  refine b.of_tables hd hp hr hfree ?_
  intro p hp0
  apply hm
  rintro rfl
  rcases hp0 with ht | hf0
  · exact hn ht
  · rw [hf] at hf0
    cases hf0

/-- The same for a copy of a whole page. -/
theorem Building.copied (b : Building s0 d s mm) (hf : s0.free page = true)
    (hn : ¬ s.IsTable page) (src : Page) : Building s0 d (copy_page s page src) mm := by
  refine b.of_tables rfl rfl rfl rfl ?_
  intro p hp0
  refine update_of_ne ?_ _ _
  rintro rfl
  rcases hp0 with ht | hf0
  · exact hn ht
  · rw [hf] at hf0
    cases hf0

end

/-! ## Giving it up -/

/-- All that `s0` had is as it was: the directories, the free frames, the counts, and what stands
in the frames that were taken. -/
structure Restored (s0 s : Frames) : Prop where
  dirs : s.dirs = s0.dirs
  pgdirs : ∀ d ∈ s0.dirs, s.pgdirs d = s0.pgdirs d
  free : s.free = s0.free
  ref : s.ref = s0.ref
  mem : ∀ p, s0.free p = false → s.mem p = s0.mem p

theorem mappings_le (s : Frames) (d : Nat) (p : Page) : s.mappings d p ≤ s.count p := by
  unfold Frames.mappings Frames.count refs
  exact Finset.card_le_card (Finset.filter_subset_filter _ (Finset.filter_subset _ _))

/-- A user address that maps the page. -/
theorem mappings_pos {s : Frames} {d : Nat} (hd : d ∈ s.dirs) {la : Word} (hlo : USERBASE ≤ la)
    (hhi : la < USERTOP) {p : Page} (hp : entryPage (s.pte d la) = some p) :
    0 < s.mappings d p := by
  refine refs_pos.2 ⟨(d, PDX la, PTX la), ?_, ?_⟩
  · exact (mem_userSlots s _ _ _ _).2
      ⟨(mem_slots s _ _ _).2 ⟨hd, PDX_lt la, PTX_lt la⟩, rfl, PDX_user hlo hhi⟩
  · rw [maps_addr, hp]

theorem of_mappings_pos {s : Frames} {d : Nat} {p : Page} (h : 0 < s.mappings d p) :
    ∃ la, entryPage (s.pte d la) = some p := by
  obtain ⟨⟨d', i, j⟩, hk, hm⟩ := refs_pos.1 h
  obtain ⟨hs, rfl, -, -⟩ := (mem_userSlots s _ _ _ _).1 hk
  obtain ⟨-, hi, hj⟩ := (mem_slots s _ _ _).1 hs
  obtain ⟨la, -, rfl, rfl⟩ := exists_addr hi hj
  rw [maps_addr] at hm
  exact ⟨la, hm⟩

/-- With `exit_mmap` and `put_pgdir` nothing is left of it. -/
theorem Building.restored {s0 s : Frames} {d : Nat} {mm : Mm} (h0 : Settled s0)
    (b : Building s0 d s mm) (A : Allocator) :
    ∃ s', exit_mmap A s mm = some s' ∧ Restored s0 (put_pgdir s' mm) := by
  have hd : mm.pgdir ∈ s.dirs := by
    rw [b.pgdir]
    exact b.dir
  have hmap : ∀ {la p}, entryPage (s.pte d la) = some p →
      0 < s.mappings d p ∧ s.mappings d p = s.count p := by
    intro la p hp
    obtain ⟨-, hin, hr⟩ := b.mapped la p hp
    obtain ⟨hlo, hhi⟩ := hin.user b.areas
    have hpos := mappings_pos b.dir hlo hhi hp
    have hle := mappings_le s d p
    have hu := b.settled.user (b.frame hp).2
    omega
  have hin : ∀ la, USERBASE ≤ la → la < USERTOP → ptep_present (s.pte mm.pgdir la) = true →
      InVmas mm.mmap_list la := by
    intro la _ _ hp
    rw [b.pgdir] at hp
    exact (b.mapped la _ (entryPage_eq_some.2 ⟨hp, rfl⟩)).2.1
  obtain ⟨l, hl⟩ : ∃ l, l = exitMmapFrees A s mm := ⟨_, rfl⟩
  obtain ⟨s', he, hx⟩ := exit_mmap_frees A b.settled hd b.count b.areas hin
  rw [← hl] at hx
  -- what goes back was free
  have hback : ∀ p ∈ l, s0.free p = true := by
    intro p hp
    rcases (hx.frees p).1 hp with ⟨hpos, -⟩ | ⟨la, hla, ht⟩
    · rw [b.pgdir] at hpos
      obtain ⟨la, hm⟩ := of_mappings_pos hpos
      exact (b.mapped la p hm).1
    · rw [b.pgdir] at ht
      exact (b.tables _ (PDX_lt la) p ht).1
  have hfree : ∀ p, s'.free p = true ↔ s0.free p = true := by
    intro p
    rw [hx.free]
    constructor
    · rintro (hp | hp)
      · exact b.free hp
      · exact hback p hp
    · intro hp
      cases hf : s.free p with
      | true => exact Or.inl rfl
      | false =>
        right
        rw [hx.frees, b.pgdir]
        rcases b.owned p hp hf with ⟨i, hi, ht⟩ | ⟨la, hm⟩
        · obtain ⟨-, la, hla, rfl⟩ := b.tables i hi p ht
          exact Or.inr ⟨la, hla, ht⟩
        · exact Or.inl (hmap hm)
  refine ⟨s', he, ?_, ?_, ?_, ?_, ?_⟩
  · show s'.dirs.erase mm.pgdir = s0.dirs
    rw [hx.dirs, b.dirs, b.pgdir, Finset.erase_insert b.fresh]
  · intro d' hd'
    have hne : d' ≠ d := fun he => b.fresh (he ▸ hd')
    funext i
    show s'.pgdirs d' i = s0.pgdirs d' i
    rw [hx.pgdirs, b.others d' hne]
    rintro ⟨he, -⟩
    exact hne (he.trans b.pgdir)
  · funext p
    show s'.free p = s0.free p
    rw [Bool.eq_iff_iff]
    exact hfree p
  · funext p
    show s'.ref p = s0.ref p
    cases hf : s0.free p with
    | true => rw [h0.free hf, hx.settled.free ((hfree p).2 hf)]
    | false =>
      have hn : p ∉ l := by
        intro hp
        rw [hback p hp] at hf
        cases hf
      obtain ⟨-, hr, -⟩ := b.taken p hf
      by_cases ht : s.IsTable p
      · rw [hx.tableRef p ht hn, hr]
      · have hz : s.mappings mm.pgdir p = 0 := by
          apply Nat.eq_zero_of_not_pos
          intro hpos
          rw [b.pgdir] at hpos
          obtain ⟨la, hm⟩ := of_mappings_pos hpos
          rw [(b.mapped la p hm).1] at hf
          cases hf
        rw [hx.ref p ht, hz, hr]
        omega
  · intro p hf
    show s'.mem p = s0.mem p
    rw [← (b.taken p hf).2.2]
    funext j
    apply hx.mem
    rintro ⟨la, -, -, ht, -⟩
    rw [b.pgdir] at ht
    rw [(b.tables _ (PDX_lt la) p ht).1] at hf
    cases hf

end nehcpu.kernel.frames
