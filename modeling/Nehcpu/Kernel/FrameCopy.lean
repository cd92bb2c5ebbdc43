-- The copy of a memory with what stands in its pages: `copy_range` and `dup_mmap`, the pages
-- that the walk of `copy_range` passes over, and what the child gets.
import Nehcpu.Kernel.FrameRefs
import Nehcpu.Kernel.VmaList

namespace nehcpu.kernel.frames

open cpu refcount Function intervals

/-! ## `copy_range` and `dup_mmap` -/

abbrev PTE_USER : Word := PTE_U ||| PTE_W ||| PTE_P

/-- One present page of `copy_range`. The flag is `ret == 0`; no page for the copy fails an
assertion. -/
def copyPage (A : Allocator) (s : Frames) (dst : Nat) (start : Word) (pte : pte_t) :
    Option (Frames × Bool) :=
  match get_pte A s dst start true with
  | (none, s) => some (s, false)
  | (some _, s) =>
    match alloc_page A s with
    | (none, _) => none
    | (some npage, s) =>
      let s := copy_page s npage (pte2page pte)
      some ((page_insert A s dst npage start (pte &&& PTE_USER)).2, true)

/-- The loop of `copy_range`. -/
def copyLoop (A : Allocator) (dst src : Nat) (stop : Word) :
    Nat → Word → Frames → Option (Frames × Bool)
  | 0, _, s => some (s, true)
  | rounds + 1, start, s =>
    match get_pte A s src start false with
    | (none, s) =>
      let start := ROUNDDOWN_2N (start + PTSIZE) PGSHIFT
      if start ≠ 0#32 ∧ start < stop then copyLoop A dst src stop rounds start s
      else some (s, true)
    | (some ptep, s) =>
      let pte := s.load ptep
      match if ptep_present pte then copyPage A s dst start pte else some (s, true) with
      | none => none
      | some (s, false) => some (s, false)
      | some (s, true) =>
        let start := start + PGSIZE
        if start ≠ 0#32 ∧ start < stop then copyLoop A dst src stop rounds start s
        else some (s, true)

def copy_range (A : Allocator) (s : Frames) (dst src : Nat) (start stop : Word) :
    Option (Frames × Bool) :=
  if pageAligned start ∧ pageAligned stop ∧ USER_ACCESS start stop then
    copyLoop A dst src stop NPAGES start s
  else none

/-- `vma_create`: there is memory for the structure or not. -/
def vma_create (A : Allocator) (s : Frames) : Bool × Frames :=
  (A.memory s.tick, { s with tick := s.tick + 1 })

/-- The loop of `dup_mmap` over the areas, the last first. -/
def dupLoop (A : Allocator) (src : Nat) : List Vma → Frames → Mm → Option (Frames × Mm × Bool)
  | [], s, mm => some (s, mm, true)
  | vma :: vmas, s, mm =>
    match vma_create A s with
    | (false, s) => some (s, mm, false)
    | (true, s) =>
      match insert_vma_struct mm.mmap_list vma with
      | none => none
      | some list =>
        let mm := mm.linked list
        match copy_range A s mm.pgdir src vma.vm_start vma.vm_end with
        | none => none
        | some (s, false) => some (s, mm, false)
        | some (s, true) => dupLoop A src vmas s mm

def dup_mmap (A : Allocator) (s : Frames) (dst src : Mm) : Option (Frames × Mm × Bool) :=
  dupLoop A src.pgdir src.mmap_list.reverse s dst

/-! ## What the copy should do -/

/-- The entry for an address, zero where there is no page table. -/
def Frames.pte (s : Frames) (d : Nat) (la : Word) : pte_t :=
  match s.table d (PDX la) with
  | none => 0#32
  | some table => s.load ⟨table, PTX la⟩

/-- The child maps the page just when the parent did: another frame with the same contents and
the same permissions. -/
structure PageCopied (s s' : Frames) (dst src : Nat) (la : Word) : Prop where
  present : ptep_present (s'.pte dst la) = ptep_present (s.pte src la)
  frame : ptep_present (s.pte src la) = true →
    pte2page (s'.pte dst la) ≠ pte2page (s.pte src la)
  contents : ptep_present (s.pte src la) = true →
    s'.mem (pte2page (s'.pte dst la)) = s.mem (pte2page (s.pte src la))
  perm : ptep_present (s.pte src la) = true →
    s'.pte dst la &&& PTE_USER = s.pte src la &&& PTE_USER

/-- The mappings of a directory and what stands in its pages. -/
structure Unchanged (s s' : Frames) (d : Nat) : Prop where
  ptes : ∀ la, s'.pte d la = s.pte d la
  contents : ∀ la, ptep_present (s.pte d la) = true →
    s'.mem (pte2page (s.pte d la)) = s.mem (pte2page (s.pte d la))

/-- Every page of every area is copied, and the parent stays as it was. -/
def Duplicated (s s' : Frames) (dst src : Nat) (vmas : List Vma) : Prop :=
  (∀ vma ∈ vmas, ∀ la, pageAligned la → vma.vm_start ≤ la → la < vma.vm_end →
    PageCopied s s' dst src la) ∧
  Unchanged s s' src

/-- The walk from `start` passes over the page: it goes from table to missing table by `PTSIZE`,
without a return to the start of a table. -/
def Skipped (s : Frames) (src : Nat) (start la : Word) : Prop :=
  (∀ i, PDX start ≤ i → i < PDX la → s.table src i = none) ∧
    la.toNat % PTSIZE.toNat < start.toNat % PTSIZE.toNat

/-- No page of the area that is present is passed over. -/
def NothingSkipped (s : Frames) (src : Nat) (vma : Vma) : Prop :=
  ∀ la, pageAligned la → vma.vm_start ≤ la → la < vma.vm_end →
    Skipped s src vma.vm_start la → ptep_present (s.pte src la) = false

/-! ## What a copy keeps -/

/-- Between the two states the directory `dst` got page tables and pages, all of them free
before, and nothing else changed. -/
structure Kept (dst : Nat) (s s' : Frames) : Prop where
  settled : Settled s'
  dirs : s'.dirs = s.dirs
  others : ∀ d, d ≠ dst → s'.pgdirs d = s.pgdirs d
  free : ∀ {p}, s.free p = false → s'.free p = false
  mem : ∀ {p}, s.free p = false → (∀ i < 1024, s.table dst i ≠ some p) → s'.mem p = s.mem p
  tables : ∀ {i t}, i < 1024 → s'.table dst i = some t → s.table dst i = some t ∨ s.free t = true

theorem Kept.refl {s : Frames} (h : Settled s) (dst : Nat) : Kept dst s s :=
  ⟨h, rfl, fun _ _ => rfl, id, fun _ _ => rfl, fun _ => Or.inl⟩

theorem Kept.trans {dst : Nat} {s s' s'' : Frames} (h : Kept dst s s') (h' : Kept dst s' s'') :
    Kept dst s s'' := by
  refine ⟨h'.settled, h'.dirs.trans h.dirs, ?_, fun hp => h'.free (h.free hp), ?_, ?_⟩
  · intro d hd
    rw [h'.others d hd, h.others d hd]
  · intro p hf hp
    rw [h'.mem (h.free hf) ?_, h.mem hf hp]
    intro i hi ht
    rcases h.tables hi ht with ht | hfree
    · exact hp i hi ht
    · rw [hf] at hfree
      cases hfree
  · intro i t hi ht
    rcases h'.tables hi ht with ht | hfree
    · exact h.tables hi ht
    · right
      rw [← Bool.not_eq_false]
      intro hf
      rw [h.free hf] at hfree
      cases hfree

section

variable {dst : Nat} {s s' : Frames}

theorem Kept.table (h : Kept dst s s') {d : Nat} (hd : d ≠ dst) (i : Nat) :
    s'.table d i = s.table d i := by
  unfold Frames.table
  rw [h.others d hd]

/-- The page tables of another directory stay. -/
theorem Kept.pte (h : Kept dst s s') (hs : Settled s) (hdst : dst ∈ s.dirs) {d : Nat}
    (hd : d ∈ s.dirs) (hne : d ≠ dst) (la : Word) : s'.pte d la = s.pte d la := by
  unfold Frames.pte
  rw [h.table hne]
  rcases ht : s.table d (PDX la) with _ | t
  · rfl
  · show s'.mem t (PTX la) = s.mem t (PTX la)
    rw [h.mem (hs.table ⟨d, hd, _, PDX_lt la, ht⟩).2.1]
    intro i hi hti
    exact hne (hs.distinct hd (PDX_lt la) hdst hi ht hti).1

/-- A page that some address maps is taken and holds no page table. -/
theorem Settled.pte_mapped (h : Settled s) {d : Nat} (hd : d ∈ s.dirs) {la : Word}
    (hp : ptep_present (s.pte d la) = true) :
    s.free (pte2page (s.pte d la)) = false ∧ ¬ s.IsTable (pte2page (s.pte d la)) := by
  unfold Frames.pte at hp ⊢
  rcases ht : s.table d (PDX la) with _ | t
  · rw [ht] at hp
    have h0 : ptep_present 0#32 = true := hp
    exact absurd h0 (by decide)
  · rw [ht] at hp
    have hpte : IsPte s d la ⟨t, PTX la⟩ := ⟨hd, ht, rfl⟩
    obtain ⟨hn, hf, -⟩ := h.mapped (fun _ => le_rfl) hpte (entryPage_eq_some.2 ⟨hp, rfl⟩)
    exact ⟨hf, hn⟩

/-- So a page that the copy does not own stays. -/
theorem Kept.contents (h : Kept dst s s') (hdst : dst ∈ s.dirs) {p : Page}
    (hf : s.free p = false) (hn : ¬ s.IsTable p) : s'.mem p = s.mem p :=
  h.mem hf fun i hi ht => hn ⟨dst, hdst, i, hi, ht⟩

theorem Kept.unchanged (h : Kept dst s s') (hs : Settled s) (hdst : dst ∈ s.dirs) {d : Nat}
    (hd : d ∈ s.dirs) (hne : d ≠ dst) : Unchanged s s' d := by
  refine ⟨fun la => h.pte hs hdst hd hne la, ?_⟩
  intro la hp
  obtain ⟨hf, hn⟩ := hs.pte_mapped hd hp
  exact h.contents hdst hf hn

end

/-! ## One page -/

theorem Settled.copy_page {s : Frames} (h : Settled s) {page : Page} (hn : ¬ s.IsTable page)
    (src : Page) : Settled (copy_page s page src) := by
  have hmaps : ∀ k ∈ s.slots, (frames.copy_page s page src).maps k = s.maps k := by
    rintro ⟨d, i, j⟩ hk
    obtain ⟨hd, hi, -⟩ := (mem_slots s d i j).1 hk
    unfold Frames.maps
    show (s.table d i).bind _ = _
    rcases ht : s.table d i with _ | t
    · rfl
    · have hne : t ≠ page := by
        rintro rfl
        exact hn ⟨d, hd, i, hi, ht⟩
      show entryPage (update s.mem page (s.mem src) t j) = entryPage (s.mem t j)
      rw [update_of_ne hne]
  have hcount : ∀ p, (frames.copy_page s page src).count p = s.count p := refs_congr hmaps
  refine ⟨h.distinct, ?_, ?_, h.free⟩
  · intro t ht
    rw [hcount]
    exact h.table ht
  · intro p hp
    rw [hcount]
    exact h.user hp

theorem pte_eq {s : Frames} {d : Nat} {la : Word} {t : Page} (ht : s.table d (PDX la) = some t) :
    s.pte d la = s.mem t (PTX la) := by
  unfold Frames.pte
  rw [ht]
  rfl

/-- A new page table has no entries. -/
theorem pte_newTable {s : Frames} (h : Settled s) {d : Nat} (hd : d ∈ s.dirs) {la : Word} {t : Page}
    (ht : s.table d (PDX la) = none) (hf : s.free t = true) (la' : Word) :
    (newTable (s.taken t) d la t).pte d la' = s.pte d la' := by
  have htn := h.not_table hf
  unfold Frames.pte
  rw [table_newTable]
  by_cases he : d = d ∧ PDX la' = PDX la
  · rw [if_pos he, he.2, ht]
    show update s.mem t (fun _ => 0#32) t (PTX la') = 0#32
    rw [update_self]
  · rw [if_neg he]
    rcases ht' : s.table d (PDX la') with _ | t'
    · rfl
    · have hne : t' ≠ t := by
        rintro rfl
        exact htn ⟨d, hd, _, PDX_lt la', ht'⟩
      show (newTable (s.taken t) d la t).mem t' (PTX la') = s.mem t' (PTX la')
      rw [mem_newTable hne]

/-- `get_pte` changes no entry of any address. -/
theorem get_pte_kept {A : Allocator} {s s1 : Frames} (h : Settled s) {dst : Nat}
    (hd : dst ∈ s.dirs) {la : Word} {ptep : PtePtr}
    (hg : get_pte A s dst la true = (some ptep, s1)) :
    Kept dst s s1 ∧ IsPte s1 dst la ptep ∧ (∀ la', s1.pte dst la' = s.pte dst la') ∧
      ∀ p, s1.free p = true → s.free p = true := by
  rcases get_pte_cases A s dst la true with ⟨t, ht, he⟩ | ⟨-, tick, he⟩ | ⟨ht, -, t, hf, he⟩
  · rw [hg] at he
    obtain ⟨h1, rfl⟩ := Prod.mk.inj he
    obtain rfl := Option.some_inj.1 h1
    exact ⟨Kept.refl h dst, ⟨hd, ht, rfl⟩, fun _ => rfl, fun _ => id⟩
  · rw [hg] at he
    exact nomatch (Prod.mk.inj he).1
  · rw [hg] at he
    obtain ⟨h1, rfl⟩ := Prod.mk.inj he
    obtain rfl := Option.some_inj.1 h1
    have hfree : ∀ p, (newTable (s.taken t) dst la t).free p = if p = t then false else s.free p :=
      fun p => update_apply _ _ _ _
    refine ⟨⟨h.newTable hd ht hf, rfl, ?_, ?_, ?_, ?_⟩,
      ⟨hd, by rw [table_newTable, if_pos ⟨rfl, rfl⟩], rfl⟩, ?_, ?_⟩
    · intro d hne
      exact update_of_ne hne _ _
    · intro p hp
      rw [hfree]
      split
      · rfl
      · exact hp
    · intro p hp _
      apply mem_newTable
      rintro rfl
      rw [hf] at hp
      cases hp
    · intro i t' _ ht'
      rw [table_newTable] at ht'
      split at ht'
      · obtain rfl := Option.some_inj.1 ht'
        exact Or.inr hf
      · exact Or.inl ht'
    · exact pte_newTable h hd ht hf
    · intro p hp
      rw [hfree] at hp
      split at hp
      · cases hp
      · exact hp

/-- The entry of another page stays. -/
theorem pte_store {s : Frames} (h : Distinct s) {d : Nat} {la : Word} {ptep : PtePtr}
    (hp : IsPte s d la ptep) (pte : pte_t) (la' : Word) :
    (s.store ptep pte).pte d la' = if SamePage la' la then pte else s.pte d la' := by
  have htab : (s.store ptep pte).table = s.table := rfl
  unfold Frames.pte
  rw [htab]
  by_cases hl : SamePage la' la
  · rw [if_pos hl, hl.1, hp.table]
    show (s.store ptep pte).load _ = pte
    rw [load_store, if_pos]
    rw [hl.2, ← hp.index]
  · rw [if_neg hl]
    rcases ht : s.table d (PDX la') with _ | t
    · rfl
    · show (s.store ptep pte).load _ = s.load _
      rw [load_store, if_neg]
      rintro rfl
      obtain ⟨-, hi⟩ := h hp.dir (PDX_lt la') hp.dir (PDX_lt la) ht hp.table
      exact hl ⟨hi, hp.index⟩

/-- The child's entry for a page of the parent. -/
structure Copy (s s' : Frames) (dst src : Nat) (la : Word) : Prop where
  absent : ptep_present (s.pte src la) = false → s'.pte dst la = 0#32
  present : ptep_present (s.pte src la) = true → ∃ npage, s.free npage = true ∧
    s'.pte dst la = page2pa npage ||| PTE_P ||| (s.pte src la &&& PTE_USER) ∧
    s'.mem npage = s.mem (pte2page (s.pte src la))

theorem PTE_USER_lt (pte : pte_t) : pte &&& PTE_USER < PGSIZE := by
  show (pte &&& PTE_USER).toNat < 4096
  rw [BitVec.toNat_and]
  exact lt_of_le_of_lt Nat.and_le_right (by decide)

/-- `page_insert` where there is a page table and no page is mapped. -/
theorem page_insert_absent {A : Allocator} {s : Frames} {d : Nat} {page : Page} {la perm : Word}
    {t : Page} (ht : s.table d (PDX la) = some t) (ha : ptep_present (s.pte d la) = false) :
    (page_insert A s d page la perm).2 =
      (page_ref_inc s page).store ⟨t, PTX la⟩ (page2pa page ||| PTE_P ||| perm) := by
  have hg : get_pte A s d la true = (some ⟨t, PTX la⟩, s) := by
    unfold get_pte
    rw [ht]
  have hload : (page_ref_inc s page).load ⟨t, PTX la⟩ = s.pte d la := by
    rw [pte_eq ht]
    rfl
  unfold page_insert
  rw [hg]
  simp only [hload, ha, Bool.false_eq_true, ↓reduceIte]

theorem copyPage_spec {A : Allocator} {s s' : Frames} (h : Settled s) {dst src : Nat}
    (hd : dst ∈ s.dirs) (hs : src ∈ s.dirs) {start : Word}
    (hp : ptep_present (s.pte src start) = true) (ha : s.pte dst start = 0#32)
    (hc : copyPage A s dst start (s.pte src start) = some (s', true)) :
    Kept dst s s' ∧ Copy s s' dst src start ∧
      ∀ la, ¬ SamePage la start → s'.pte dst la = s.pte dst la := by
  obtain ⟨hpf, hpn⟩ := h.pte_mapped hs hp
  unfold copyPage at hc
  obtain ⟨r, s1, hg⟩ : ∃ r s1, get_pte A s dst start true = (r, s1) := ⟨_, _, rfl⟩
  rw [hg] at hc
  cases r with
  | none =>
    simp only [Option.some_inj, Prod.mk.injEq] at hc
    exact absurd hc.2 Bool.false_ne_true
  | some ptep =>
    obtain ⟨hk1, hpte1, hsame1, hfree1⟩ := get_pte_kept h hd hg
    have h1 := hk1.settled
    simp only at hc
    rcases alloc_page_cases A s1 with hal | ⟨npage, hnf, hal⟩
    · rw [hal] at hc
      cases hc
    · rw [hal] at hc
      have hnt := h1.not_table hnf
      obtain ⟨s3, hs3⟩ : ∃ s3, s3 =
          copy_page (s1.taken npage) npage (pte2page (s.pte src start)) := ⟨_, rfl⟩
      have h3 : Settled s3 := by
        rw [hs3]
        exact (h1.taken npage).copy_page hnt _
      have htab3 : s3.table dst (PDX start) = some ptep.table := by
        rw [hs3]
        exact hpte1.table
      have hmem3 : ∀ p, p ≠ npage → s3.mem p = s1.mem p := by
        intro p hne
        rw [hs3]
        exact update_of_ne hne _ _
      have hpte3 : ∀ la, s3.pte dst la = s.pte dst la := by
        intro la
        rw [← hsame1 la]
        unfold Frames.pte
        have ht3 : s3.table dst (PDX la) = s1.table dst (PDX la) := by rw [hs3]; rfl
        rw [ht3]
        rcases ht : s1.table dst (PDX la) with _ | t
        · rfl
        · have hne : t ≠ npage := by
            rintro rfl
            exact hnt ⟨dst, hpte1.dir, _, PDX_lt la, ht⟩
          show s3.mem t (PTX la) = s1.mem t (PTX la)
          rw [hmem3 t hne]
      have hab3 : ptep_present (s3.pte dst start) = false := by
        rw [hpte3, ha]
        rfl
      have hdst3 : dst ∈ s3.dirs := by
        rw [hs3]
        exact hpte1.dir
      have hfree3 : s3.free npage = false := by
        rw [hs3]
        exact update_self _ _ _
      have hnt3 : ¬ s3.IsTable npage := by
        rw [hs3]
        exact hnt
      have hperm := PTE_USER_lt (s.pte src start)
      obtain ⟨hok, -, -⟩ := page_insert_spec (A := A) h3 hdst3 hfree3 hnt3 start hperm
      simp only [← hs3, Option.some_inj, Prod.mk.injEq, and_true] at hc
      rw [hc] at hok
      rw [page_insert_absent htab3 hab3] at hc
      have hp3 : IsPte (page_ref_inc s3 npage) dst start ⟨ptep.table, PTX start⟩ :=
        ⟨hdst3, htab3, rfl⟩
      have hdis : Distinct (page_ref_inc s3 npage) := h3.distinct
      have hptes : ∀ la, s'.pte dst la = if SamePage la start then
          page2pa npage ||| PTE_P ||| (s.pte src start &&& PTE_USER) else s.pte dst la := by
        intro la
        rw [← hc, pte_store hdis hp3, ← hpte3 la]
        rfl
      have hnf0 := hfree1 npage hnf
      -- only the page table and the new page were written
      have hmem : ∀ p, p ≠ ptep.table → p ≠ npage → s'.mem p = s1.mem p := by
        intro p h1 h2
        rw [← hc]
        exact (update_of_ne h1 _ _).trans (hmem3 p h2)
      have hne : npage ≠ ptep.table := by
        rintro rfl
        exact hnt ⟨dst, hpte1.dir, _, PDX_lt start, hpte1.table⟩
      refine ⟨hk1.trans ⟨hok, ?_, ?_, ?_, ?_, ?_⟩, ⟨?_, ?_⟩, ?_⟩
      · rw [← hc, hs3]
        rfl
      · intro d _
        rw [← hc, hs3]
        rfl
      · intro p hf
        rw [← hc, hs3]
        exact taken_free hf
      · intro p hf hp
        apply hmem
        · rintro rfl
          exact hp _ (PDX_lt start) hpte1.table
        · rintro rfl
          rw [hnf] at hf
          cases hf
      · intro i t _ ht
        left
        rw [← hc, hs3] at ht
        exact ht
      · intro hn
        rw [hp] at hn
        cases hn
      · intro _
        refine ⟨npage, hnf0, by rw [hptes, if_pos ⟨rfl, rfl⟩], ?_⟩
        have hsrc : s1.mem (pte2page (s.pte src start)) = s.mem (pte2page (s.pte src start)) :=
          hk1.contents hd hpf hpn
        rw [← hsrc, ← hc]
        show update s3.mem ptep.table _ npage = _
        rw [update_of_ne hne, hs3]
        show update s1.mem npage (s1.mem (pte2page (s.pte src start))) npage = _
        rw [update_self]
      · intro la hl
        rw [hptes, if_neg hl]

/-! ## The walk -/

theorem Copy.later {dst src : Nat} {s s1 s2 : Frames} {la : Word} (h : Copy s s1 dst src la)
    (hk : Kept dst s1 s2) (h1 : Settled s1) (hd : dst ∈ s1.dirs)
    (he : s2.pte dst la = s1.pte dst la) : Copy s s2 dst src la := by
  refine ⟨fun ha => he.trans (h.absent ha), ?_⟩
  intro hp
  obtain ⟨npage, hf, hpte, hmem⟩ := h.present hp
  refine ⟨npage, hf, he.trans hpte, ?_⟩
  have hent : entryPage (s1.pte dst la) = some npage := by
    rw [hpte]
    exact entryPage_insert npage (PTE_USER_lt _)
  obtain ⟨hpres, hpage⟩ := entryPage_eq_some.1 hent
  obtain ⟨hnf, hnt⟩ := h1.pte_mapped hd hpres
  rw [hpage] at hnf hnt
  rw [hk.contents hd hnf hnt, hmem]

theorem Copy.earlier {dst src : Nat} {s s1 s2 : Frames} {la : Word} (h : Copy s1 s2 dst src la)
    (hk : Kept dst s s1) (hs : Settled s) (hd : dst ∈ s.dirs) (hsrc : src ∈ s.dirs)
    (hne : src ≠ dst) : Copy s s2 dst src la := by
  have hpte := hk.pte hs hd hsrc hne la
  refine ⟨fun ha => h.absent (by rw [hpte]; exact ha), ?_⟩
  intro hp
  obtain ⟨npage, hf, he, hmem⟩ := h.present (by rw [hpte]; exact hp)
  rw [hpte] at he hmem
  obtain ⟨hpf, hpn⟩ := hs.pte_mapped hsrc hp
  refine ⟨npage, ?_, he, hmem.trans (hk.contents hd hpf hpn)⟩
  rw [← Bool.not_eq_false]
  intro hnf
  rw [hk.free hnf] at hf
  cases hf

/-- The part of an area that the walk leaves alone stays empty in the child, the rest is
copied. -/
structure Walked (s s' : Frames) (dst src : Nat) (start stop : Word) : Prop where
  kept : Kept dst s s'
  outside : ∀ la, ¬ (start ≤ la ∧ la < stop) → s'.pte dst la = s.pte dst la
  skipped : ∀ la, start ≤ la → la < stop → Skipped s src start la → s'.pte dst la = 0#32
  copied : ∀ la, pageAligned la → start ≤ la → la < stop → ¬ Skipped s src start la →
    Copy s s' dst src la

theorem Skipped.congr {s s1 : Frames} {src : Nat} (h : ∀ i, s1.table src i = s.table src i)
    {start la : Word} : Skipped s1 src start la ↔ Skipped s src start la := by
  unfold Skipped
  simp only [h]

section

variable {dst src : Nat} {s s1 s' : Frames} {start next stop : Word}

/-- Nothing is left of the area. -/
theorem Walked.nil (h : Settled s) (hle : stop ≤ start) : Walked s s dst src start stop := by
  have hn : ∀ la : Word, start ≤ la → ¬ la < stop := by
    intro la h1 h2
    have h3 : stop.toNat ≤ start.toNat := hle
    have h4 : start.toNat ≤ la.toNat := h1
    have h5 : la.toNat < stop.toNat := h2
    omega
  exact ⟨Kept.refl h dst, fun _ _ => rfl, fun la h1 h2 => absurd h2 (hn la h1),
    fun la _ h1 h2 => absurd h2 (hn la h1)⟩

theorem pte_of_no_table (ht : s.table src (PDX start) = none) : s.pte src start = 0#32 := by
  unfold Frames.pte
  rw [ht]

/-- A step over a table that is missing. -/
theorem Walked.miss (ht : s.table src (PDX start) = none)
    (hn : next.toNat = start.toNat + 4194304)
    (hz : ∀ la, start ≤ la → la < stop → s.pte dst la = 0#32)
    (h : Walked s s' dst src next stop) : Walked s s' dst src start stop := by
  have hpt : PTSIZE.toNat = 4194304 := rfl
  have hpdx : PDX next = PDX start + 1 := by
    rw [PDX_eq, PDX_eq]
    omega
  have hmod : next.toNat % PTSIZE.toNat = start.toNat % PTSIZE.toNat := by
    rw [hpt]
    omega
  have hbefore : ∀ la : Word, start ≤ la → la < stop → la < next → s'.pte dst la = 0#32 := by
    intro la h1 h2 h3
    rw [h.outside la, hz la h1 h2]
    rintro ⟨h4, -⟩
    exact absurd h3 (BitVec.not_lt.2 h4)
  refine ⟨h.kept, ?_, ?_, ?_⟩
  · intro la hla
    apply h.outside
    rintro ⟨h1, h2⟩
    apply hla
    refine ⟨?_, h2⟩
    have h3 : next.toNat ≤ la.toNat := h1
    show start.toNat ≤ la.toNat
    omega
  · intro la h1 h2 hs
    by_cases hla : la < next
    · exact hbefore la h1 h2 hla
    · apply h.skipped la (BitVec.not_lt.1 hla) h2
      refine ⟨fun i hi => hs.1 i (by omega), ?_⟩
      rw [hmod]
      exact hs.2
  · intro la hal h1 h2 hs
    have h1' : start.toNat ≤ la.toNat := h1
    by_cases hla : la < next
    · have hla' : la.toNat < next.toNat := hla
      by_cases hp : PDX la = PDX start
      · have hsrc : s.pte src la = 0#32 := pte_of_no_table (by rw [hp, ht])
        refine ⟨fun _ => hbefore la h1 h2 hla, ?_⟩
        intro hpres
        rw [hsrc] at hpres
        exact absurd hpres (by decide)
      · -- the page lies in the next table, before the place where the walk arrives
        exfalso
        apply hs
        have hp1 : PDX la = PDX start + 1 := by
          rw [PDX_eq, PDX_eq] at hp ⊢
          omega
        refine ⟨?_, ?_⟩
        · intro i hi1 hi2
          have hi : i = PDX start := by omega
          rw [hi, ht]
        · rw [PDX_eq, PDX_eq] at hp1
          rw [hpt]
          omega
    · apply h.copied la hal (BitVec.not_lt.1 hla) h2
      intro hs'
      apply hs
      refine ⟨?_, ?_⟩
      · intro i hi1 hi2
        by_cases hi : i = PDX start
        · rw [hi, ht]
        · exact hs'.1 i (by omega) hi2
      · rw [← hmod]
        exact hs'.2

/-- A step to the next page of a table that is there. -/
theorem Walked.page (hs : Settled s) (hd : dst ∈ s.dirs) (hsrc : src ∈ s.dirs) (hne : src ≠ dst)
    (hstart : start.toNat % 4096 = 0) (hstop : stop.toNat % 4096 = 0) (hlt : start < stop)
    (ht : s.table src (PDX start) ≠ none) (hn : next.toNat = start.toNat + 4096)
    (hk : Kept dst s s1) (hc : Copy s s1 dst src start)
    (ho : ∀ la, ¬ SamePage la start → s1.pte dst la = s.pte dst la)
    (h : Walked s1 s' dst src next stop) : Walked s s' dst src start stop := by
  have hpt : PTSIZE.toNat = 4194304 := rfl
  have hlt' : start.toNat < stop.toNat := hlt
  have hd1 : dst ∈ s1.dirs := by
    rw [hk.dirs]
    exact hd
  -- with the table there the walk passes over nothing
  have hns : ∀ la : Word, start ≤ la → ¬ Skipped s src start la := by
    rintro la h1 ⟨h2, h3⟩
    have h1' : start.toNat ≤ la.toNat := h1
    by_cases hp : PDX start < PDX la
    · exact ht (h2 _ le_rfl hp)
    · rw [PDX_eq, PDX_eq] at hp
      rw [hpt] at h3
      omega
  have hns1 : ∀ la : Word, next ≤ la → ¬ Skipped s1 src next la := by
    rintro la h1 ⟨h2, h3⟩
    have h1' : next.toNat ≤ la.toNat := h1
    rw [hpt] at h3
    by_cases hp : PDX next < PDX la
    · by_cases hp1 : PDX next = PDX start
      · have hnone := h2 _ le_rfl hp
        rw [hk.table hne, hp1] at hnone
        exact ht hnone
      · rw [PDX_eq, PDX_eq] at hp1
        omega
    · rw [PDX_eq, PDX_eq] at hp
      omega
  refine ⟨hk.trans h.kept, ?_, fun la h1 _ hs' => absurd hs' (hns la h1), ?_⟩
  · intro la hla
    rw [h.outside la, ho la]
    · intro hl
      rw [samePage_iff] at hl
      apply hla
      have h1 : start.toNat ≤ la.toNat := by omega
      have h2 : la.toNat < stop.toNat := by omega
      exact ⟨h1, h2⟩
    · rintro ⟨h1, h2⟩
      apply hla
      have h1' : next.toNat ≤ la.toNat := h1
      have h3 : start.toNat ≤ la.toNat := by omega
      exact ⟨h3, h2⟩
  · intro la hal h1 h2 _
    have hal' := toNat_of_pageAligned hal
    have h1' : start.toNat ≤ la.toNat := h1
    by_cases hla : la < next
    · have hla' : la.toNat < next.toNat := hla
      have he : la = start := by
        apply BitVec.eq_of_toNat_eq
        omega
      rw [he]
      apply hc.later h.kept hk.settled hd1
      apply h.outside
      rintro ⟨h3, -⟩
      have h3' : next.toNat ≤ start.toNat := h3
      omega
    · have h3 := BitVec.not_lt.1 hla
      exact (h.copied la hal h3 h2 (hns1 la h3)).earlier hk hs hd hsrc hne

end

theorem copyLoop_spec {A : Allocator} {dst src : Nat} (hne : src ≠ dst) {stop : Word}
    (hstop : stop.toNat % 4096 = 0) (htop : stop ≤ USERTOP) :
    ∀ (rounds : Nat) (start : Word) (s s' : Frames), Settled s → dst ∈ s.dirs → src ∈ s.dirs →
      start.toNat % 4096 = 0 → start < stop → stop.toNat ≤ start.toNat + 4096 * rounds →
      (∀ la, start ≤ la → la < stop → s.pte dst la = 0#32) →
      copyLoop A dst src stop rounds start s = some (s', true) →
      Walked s s' dst src start stop := by
  intro rounds
  induction rounds with
  | zero =>
    intro start s s' _ _ _ _ hlt hr
    have hlt' : start.toNat < stop.toNat := hlt
    omega
  | succ rounds ih =>
    intro start s s' hs hd hsrc hal hlt hr hz hc
    have hlt' : start.toNat < stop.toNat := hlt
    have htop' : stop.toNat ≤ 2147483648 := htop
    -- the address is not zero again, so the loop goes on just below the end
    have hgo : ∀ next : Word, start.toNat < next.toNat →
        ((next ≠ 0#32 ∧ next < stop) ↔ next < stop) := by
      intro next hn
      refine and_iff_right ?_
      rintro rfl
      rw [BitVec.toNat_zero] at hn
      omega
    unfold copyLoop at hc
    rcases get_pte_cases A s src start false with ⟨t, ht, hg⟩ | ⟨ht, tick, hg⟩ | ⟨-, hcr, -⟩
    · rw [hg] at hc
      have hn : (start + PGSIZE).toNat = start.toNat + 4096 := by
        rw [BitVec.toNat_add, BitVec.toNat_ofNat]
        omega
      have hload : s.load ⟨t, PTX start⟩ = s.pte src start := (pte_eq ht).symm
      simp only [hload, hgo (start + PGSIZE) (by omega)] at hc
      have hpage : ∀ s1, (if ptep_present (s.pte src start) then
          copyPage A s dst start (s.pte src start) else some (s, true)) = some (s1, true) →
          Kept dst s s1 ∧ Copy s s1 dst src start ∧
            ∀ la, ¬ SamePage la start → s1.pte dst la = s.pte dst la := by
        intro s1 h1
        split at h1
        · next hp => exact copyPage_spec hs hd hsrc hp (hz start (BitVec.le_refl _) hlt) h1
        · next hp =>
          simp only [Option.some_inj, Prod.mk.injEq, and_true] at h1
          obtain rfl := h1
          exact ⟨Kept.refl hs dst, ⟨fun _ => hz start (BitVec.le_refl _) hlt, fun h => absurd h hp⟩,
            fun _ _ => rfl⟩
      split at hc
      · cases hc
      · simp only [Option.some_inj, Prod.mk.injEq] at hc
        exact absurd hc.2 Bool.false_ne_true
      · next s1 h1 =>
        obtain ⟨hk, hcopy, ho⟩ := hpage s1 h1
        have hd1 : dst ∈ s1.dirs := by
          rw [hk.dirs]
          exact hd
        have hsrc1 : src ∈ s1.dirs := by
          rw [hk.dirs]
          exact hsrc
        refine Walked.page hs hd hsrc hne hal hstop hlt (by rw [ht]; exact Option.some_ne_none t)
          hn hk hcopy ho ?_
        split at hc
        · next hlt1 =>
          apply ih (start + PGSIZE) s1 s' hk.settled hd1 hsrc1 (by omega) hlt1 (by omega) _ hc
          intro la h2 h3
          have h2' : (start + PGSIZE).toNat ≤ la.toNat := h2
          have h4 : start.toNat ≤ la.toNat := by omega
          rw [ho la, hz la h4 h3]
          rw [samePage_iff]
          omega
        · next hlt1 =>
          simp only [Option.some_inj, Prod.mk.injEq, and_true] at hc
          obtain rfl := hc
          exact Walked.nil hk.settled (BitVec.not_lt.1 hlt1)
    · rw [hg] at hc
      have hadd : (start + PTSIZE).toNat = start.toNat + 4194304 := by
        rw [BitVec.toNat_add, BitVec.toNat_ofNat]
        omega
      have hn : (ROUNDDOWN_2N (start + PTSIZE) PGSHIFT).toNat = start.toNat + 4194304 := by
        rw [toNat_page, hadd]
        omega
      simp only [hgo (ROUNDDOWN_2N (start + PTSIZE) PGSHIFT) (by omega)] at hc
      have hz' : ∀ la, start ≤ la → la < stop →
          ({ s with tick := tick } : Frames).pte dst la = 0#32 := hz
      have hw : Walked { s with tick := tick } s' dst src start stop := by
        refine Walked.miss (by exact ht) hn hz' ?_
        split at hc
        · next hlt1 =>
          apply ih _ { s with tick := tick } s' (hs.tick tick) hd hsrc (by omega) hlt1 (by omega) _ hc
          intro la h2 h3
          have h2' : (ROUNDDOWN_2N (start + PTSIZE) PGSHIFT).toNat ≤ la.toNat := h2
          have h4 : start.toNat ≤ la.toNat := by omega
          exact hz la h4 h3
        · next hlt1 =>
          simp only [Option.some_inj, Prod.mk.injEq, and_true] at hc
          obtain rfl := hc
          exact Walked.nil (hs.tick tick) (BitVec.not_lt.1 hlt1)
      have htick : Kept dst s { s with tick := tick } :=
        ⟨hs.tick tick, rfl, fun _ _ => rfl, id, fun _ _ => rfl, fun _ => Or.inl⟩
      exact ⟨htick.trans hw.kept, hw.outside, hw.skipped,
        fun la h1 h2 h3 h4 => (hw.copied la h1 h2 h3 h4).earlier htick hs hd hsrc hne⟩
    · cases hcr

theorem copy_range_spec {A : Allocator} {dst src : Nat} (hne : src ≠ dst) {start stop : Word}
    {s s' : Frames} (hs : Settled s) (hd : dst ∈ s.dirs) (hsrc : src ∈ s.dirs)
    (hz : ∀ la, start ≤ la → la < stop → s.pte dst la = 0#32)
    (hc : copy_range A s dst src start stop = some (s', true)) :
    Walked s s' dst src start stop := by
  unfold copy_range at hc
  split at hc
  · next hr =>
    obtain ⟨hal, hal', -, hlt, htop⟩ := hr
    have hstop : stop.toNat ≤ 2147483648 := htop
    have hrounds : stop.toNat ≤ start.toNat + 4096 * NPAGES :=
      le_trans hstop (le_trans (by decide) (Nat.le_add_left (4096 * NPAGES) _))
    exact copyLoop_spec hne (toNat_of_pageAligned hal') htop NPAGES start s s' hs hd hsrc
      (toNat_of_pageAligned hal) hlt hrounds hz hc
  · cases hc

/-! ## All areas -/

/-- The child's entries stand in its areas. -/
def Covered (s : Frames) (d : Nat) (vmas : List Vma) : Prop :=
  ∀ la, s.pte d la ≠ 0#32 → ∃ v ∈ vmas, v.vm_start ≤ la ∧ la < v.vm_end

theorem insert_separated {list list' : List Vma} {vma : Vma}
    (h : Separated Vma.lo Vma.hi list) (hi : insert_vma_struct list vma = some list') :
    Separated Vma.lo Vma.hi list' ∧ ∀ w, w ∈ list' ↔ w = vma ∨ w ∈ list := by
  obtain ⟨hlt, hap⟩ := apart_of_insert h hi
  rw [insert_vma_struct_eq h hlt hap] at hi
  obtain rfl := Option.some_inj.1 hi
  refine ⟨h.insert hlt hap, ?_⟩
  intro w
  have hsplit := List.takeWhile_append_dropWhile (p := fun w : Vma => decide (w.lo ≤ vma.lo))
    (l := list)
  rw [List.mem_append, List.mem_cons, or_left_comm, ← List.mem_append, hsplit]

theorem dupLoop_spec {A : Allocator} {src dst : Nat} (hne : src ≠ dst) : ∀ (vmas : List Vma)
    (s s' : Frames) (mm mm' : Mm), Settled s → dst ∈ s.dirs → src ∈ s.dirs → mm.pgdir = dst →
    Separated Vma.lo Vma.hi mm.mmap_list → Covered s dst mm.mmap_list →
    dupLoop A src vmas s mm = some (s', mm', true) →
    Kept dst s s' ∧
      (∀ la, (∀ v ∈ vmas, ¬ (v.vm_start ≤ la ∧ la < v.vm_end)) → s'.pte dst la = s.pte dst la) ∧
      (∀ v ∈ vmas, ∀ w ∈ mm.mmap_list, Apart Vma.lo Vma.hi v w) ∧
      ∀ v ∈ vmas, ∀ la, pageAligned la → v.vm_start ≤ la → la < v.vm_end →
        (Skipped s src v.vm_start la → s'.pte dst la = 0#32) ∧
        (¬ Skipped s src v.vm_start la → Copy s s' dst src la) := by
  intro vmas
  induction vmas with
  | nil =>
    intro s s' mm mm' hs _ _ _ _ _ hc
    simp only [dupLoop, Option.some_inj, Prod.mk.injEq] at hc
    obtain ⟨rfl, -⟩ := hc
    exact ⟨Kept.refl hs dst, fun _ _ => rfl, fun v hv => absurd hv List.not_mem_nil,
      fun v hv => absurd hv List.not_mem_nil⟩
  | cons vma vmas ih =>
    intro s s' mm mm' hs hd hsrc hpg hsep hcov hc
    obtain ⟨s0, hs0⟩ : ∃ s0, s0 = ({ s with tick := s.tick + 1 } : Frames) := ⟨_, rfl⟩
    have hs0' : Settled s0 := by
      rw [hs0]
      exact hs.tick _
    have htick : Kept dst s s0 := by
      rw [hs0]
      exact ⟨hs.tick _, rfl, fun _ _ => rfl, id, fun _ _ => rfl, fun _ => Or.inl⟩
    have hpte0 : ∀ la, s0.pte dst la = s.pte dst la := by
      intro la
      rw [hs0]
      rfl
    have hd0 : dst ∈ s0.dirs := by
      rw [hs0]
      exact hd
    have hsrc0 : src ∈ s0.dirs := by
      rw [hs0]
      exact hsrc
    unfold dupLoop vma_create at hc
    rw [← hs0] at hc
    cases hm : A.memory s.tick with
    | false =>
      simp only [hm, Option.some_inj, Prod.mk.injEq] at hc
      exact absurd hc.2.2 Bool.false_ne_true
    | true =>
      simp only [hm] at hc
      rcases hi : insert_vma_struct mm.mmap_list vma with _ | list
      · rw [hi] at hc
        cases hc
      · simp only [hi] at hc
        obtain ⟨hlt, hap⟩ := apart_of_insert hsep hi
        obtain ⟨hsep', hmem⟩ := insert_separated hsep hi
        -- the area is empty in the child, since it meets none of the areas there
        have hz : ∀ la, vma.vm_start ≤ la → la < vma.vm_end → s0.pte dst la = 0#32 := by
          intro la h1 h2
          rw [hpte0]
          by_contra hnz
          obtain ⟨v, hv, h3, h4⟩ := hcov la hnz
          have h1' : vma.lo ≤ la.toNat := h1
          have h2' : la.toNat < vma.hi := h2
          have h3' : v.lo ≤ la.toNat := h3
          have h4' : la.toNat < v.hi := h4
          rcases hap v hv with h | h
          · omega
          · omega
        have hlp : (mm.linked list).pgdir = dst := hpg
        rw [hlp] at hc
        rcases hr : copy_range A s0 dst src vma.vm_start vma.vm_end with _ | ⟨s1, ok⟩
        · rw [hr] at hc
          cases hc
        · cases ok with
          | false =>
            simp only [hr, Option.some_inj, Prod.mk.injEq] at hc
            exact absurd hc.2.2 Bool.false_ne_true
          | true =>
            simp only [hr] at hc
            have hw := copy_range_spec hne hs0' hd0 hsrc0 hz hr
            have hk1 := htick.trans hw.kept
            have hd1 : dst ∈ s1.dirs := by
              rw [hk1.dirs]
              exact hd
            have hsrc1 : src ∈ s1.dirs := by
              rw [hk1.dirs]
              exact hsrc
            have hcov1 : Covered s1 dst list := by
              intro la hnz
              by_cases hin : vma.vm_start ≤ la ∧ la < vma.vm_end
              · exact ⟨vma, (hmem vma).2 (Or.inl rfl), hin⟩
              · rw [hw.outside la hin, hpte0] at hnz
                obtain ⟨v, hv, hr⟩ := hcov la hnz
                exact ⟨v, (hmem v).2 (Or.inr hv), hr⟩
            obtain ⟨hk2, ho2, hap2, hall⟩ := ih s1 s' (mm.linked list) mm' hk1.settled hd1 hsrc1
              hlp hsep' hcov1 hc
            have hin : vma ∈ (mm.linked list).mmap_list := (hmem vma).2 (Or.inl rfl)
            refine ⟨hk1.trans hk2, ?_, ?_, ?_⟩
            · intro la hla
              rw [ho2 la fun v hv => hla v (List.mem_cons_of_mem vma hv),
                hw.outside la (hla vma List.mem_cons_self), hpte0]
            · intro v hv w hw'
              rcases List.mem_cons.1 hv with rfl | hv
              · exact hap w hw'
              · exact hap2 v hv w ((hmem w).2 (Or.inr hw'))
            · intro v hv la hal h1 h2
              rcases List.mem_cons.1 hv with rfl | hv
              · -- the later areas leave this one alone
                have hlater : s'.pte dst la = s1.pte dst la := by
                  apply ho2
                  rintro w hw' ⟨h3, h4⟩
                  have h1' : v.lo ≤ la.toNat := h1
                  have h2' : la.toNat < v.hi := h2
                  have h3' : w.lo ≤ la.toNat := h3
                  have h4' : la.toNat < w.hi := h4
                  rcases hap2 w hw' v hin with h | h
                  · omega
                  · omega
                have hskip : Skipped s0 src v.vm_start la ↔ Skipped s src v.vm_start la :=
                  Skipped.congr (htick.table hne)
                constructor
                · intro hsk
                  rw [hlater]
                  exact hw.skipped la h1 h2 (hskip.2 hsk)
                · intro hsk
                  have hcp := hw.copied la hal h1 h2 (hskip.not.2 hsk)
                  exact (hcp.later hk2 hk1.settled hd1 hlater).earlier htick hs hd hsrc hne
              · have hskip : Skipped s1 src v.vm_start la ↔ Skipped s src v.vm_start la :=
                  Skipped.congr (hk1.table hne)
                obtain ⟨hsk, hcp⟩ := hall v hv la hal h1 h2
                constructor
                · exact fun h => hsk (hskip.2 h)
                · exact fun h => (hcp (hskip.not.2 h)).earlier hk1 hs hd hsrc hne

theorem or_and_absorb (x y : Word) : x ||| (x &&& y) = x := by
  ext i hi
  rw [BitVec.getElem_or, BitVec.getElem_and]
  cases x[i]
  · rfl
  · rfl

/-- The permissions of a present entry have the present bit. -/
theorem perm_present {pte : pte_t} (hp : ptep_present pte = true) :
    PTE_P &&& PTE_USER ||| (pte &&& PTE_USER) = pte &&& PTE_USER := by
  have hbit : pte &&& PTE_P = PTE_P := by
    rw [ptep_present_eq] at hp
    have hone : PTE_P = BitVec.twoPow 32 0 := rfl
    rw [hone, BitVec.and_twoPow, BitVec.getLsbD_eq_getElem (by decide), hp, if_pos rfl]
  calc PTE_P &&& PTE_USER ||| (pte &&& PTE_USER)
      = (pte &&& PTE_P) &&& PTE_USER ||| (pte &&& PTE_USER) := by rw [hbit]
    _ = pte &&& PTE_USER ||| (pte &&& PTE_USER &&& PTE_P) := by
      rw [BitVec.or_comm, BitVec.and_assoc, BitVec.and_comm PTE_P, ← BitVec.and_assoc]
    _ = pte &&& PTE_USER := or_and_absorb _ _

/-- The entry of a copy maps another page, and with the permissions of the parent's. -/
theorem Copy.pageCopied {s s' : Frames} {dst src : Nat} {la : Word} (hs : Settled s)
    (hsrc : src ∈ s.dirs) (h : Copy s s' dst src la) : PageCopied s s' dst src la := by
  cases hp : ptep_present (s.pte src la) with
  | false =>
    have hz := h.absent hp
    refine ⟨by rw [hz, hp]; rfl, ?_, ?_, ?_⟩
    · intro ht
      rw [hp] at ht
      cases ht
    · intro ht
      rw [hp] at ht
      cases ht
    · intro ht
      rw [hp] at ht
      cases ht
  | true =>
    obtain ⟨npage, hf, he, hmem⟩ := h.present hp
    have hent : entryPage (s'.pte dst la) = some npage := by
      rw [he]
      exact entryPage_insert npage (PTE_USER_lt _)
    obtain ⟨hpres, hpage⟩ := entryPage_eq_some.1 hent
    obtain ⟨hpf, -⟩ := hs.pte_mapped hsrc hp
    refine ⟨by rw [hpres, hp], ?_, ?_, ?_⟩
    · intro _ heq
      rw [hpage] at heq
      rw [← heq, hf] at hpf
      cases hpf
    · intro _
      rw [hpage, hmem]
    · intro _
      have hlow : page2pa npage &&& PTE_USER = 0#32 := by
        apply BitVec.eq_of_toNat_eq
        rw [BitVec.toNat_and, toNat_page2pa]
        show _ &&& 7 = 0
        have h7 : npage.toNat * 4096 &&& 7 = npage.toNat * 4096 % 2 ^ 3 :=
          Nat.and_two_pow_sub_one_eq_mod _ 3
        rw [h7]
        omega
      rw [he, BitVec.and_or_distrib_right, BitVec.and_or_distrib_right, hlow, BitVec.zero_or,
        BitVec.and_assoc, BitVec.and_self]
      exact perm_present hp

/-- A copy into a new memory, as `copy_mm` makes it, succeeds in full just when the walk of no
area passes over a page that is present: when the page table at the start of the area is missing,
no page stands in the first table that follows at a lower offset than that start. -/
theorem dup_mmap_iff (A : Allocator) (s s' : Frames) (d : Nat) (src dst' : Mm) (hs : Settled s)
    (hsrc : src.pgdir ∈ s.dirs) (hd : d ∉ s.dirs)
    (hdup : dup_mmap A (setup_pgdir s d) (mm_create d) src = some (s', dst', true)) :
    Duplicated s s' d src.pgdir src.mmap_list ↔
      ∀ vma ∈ src.mmap_list, NothingSkipped s src.pgdir vma := by
  have hne : src.pgdir ≠ d := fun he => hd (he ▸ hsrc)
  obtain ⟨s0, hs0⟩ : ∃ s0, s0 = setup_pgdir s d := ⟨_, rfl⟩
  have hsettled : Settled s0 := by
    rw [hs0]
    exact (setup_pgdir_spec hs hd).1
  have htable : ∀ i, s0.table src.pgdir i = s.table src.pgdir i := by
    intro i
    rw [hs0]
    show entryPage (update s.pgdirs d _ src.pgdir i) = _
    rw [update_of_ne hne]
    rfl
  have hmem : s0.mem = s.mem := by rw [hs0]; rfl
  have hfree : s0.free = s.free := by rw [hs0]; rfl
  have hpte : ∀ la, s0.pte src.pgdir la = s.pte src.pgdir la := by
    intro la
    unfold Frames.pte Frames.load
    rw [htable, hmem]
  have hempty : ∀ la, s0.pte d la = 0#32 := by
    intro la
    apply pte_of_no_table
    rw [hs0]
    show entryPage (update s.pgdirs d (fun _ => 0#32) d _) = none
    rw [update_self]
    exact entryPage_zero
  have hdirs : d ∈ s0.dirs ∧ src.pgdir ∈ s0.dirs := by
    rw [hs0]
    exact ⟨Finset.mem_insert_self d s.dirs, Finset.mem_insert_of_mem hsrc⟩
  rw [← hs0] at hdup
  obtain ⟨hk, -, -, hall⟩ := dupLoop_spec hne src.mmap_list.reverse s0 s' (mm_create d) dst'
    hsettled hdirs.1 hdirs.2 rfl Separated.nil (fun la hnz => absurd (hempty la) hnz) hdup
  have hunch : Unchanged s s' src.pgdir := by
    obtain ⟨h1, h2⟩ := hk.unchanged hsettled hdirs.1 hdirs.2 hne
    refine ⟨fun la => (h1 la).trans (hpte la), ?_⟩
    intro la hp
    have h3 := h2 la (by rw [hpte]; exact hp)
    rw [hpte, hmem] at h3
    exact h3
  constructor
  · rintro ⟨hpages, -⟩ vma hv la hal h1 h2 hsk
    have hz := (hall vma (List.mem_reverse.2 hv) la hal h1 h2).1 ((Skipped.congr htable).2 hsk)
    have hpres := (hpages vma hv la hal h1 h2).present
    rw [hz] at hpres
    exact hpres.symm
  · intro hno
    refine ⟨?_, hunch⟩
    intro vma hv la hal h1 h2
    obtain ⟨hskip, hcopy⟩ := hall vma (List.mem_reverse.2 hv) la hal h1 h2
    have hc : Copy s s' d src.pgdir la := by
      by_cases hsk : Skipped s src.pgdir vma.vm_start la
      · have habs := hno vma hv la hal h1 h2 hsk
        refine ⟨fun _ => hskip ((Skipped.congr htable).2 hsk), ?_⟩
        intro hp
        rw [habs] at hp
        cases hp
      · obtain ⟨ha, hp⟩ := hcopy ((Skipped.congr htable).not.2 hsk)
        rw [hpte] at ha hp
        rw [hfree, hmem] at hp
        exact ⟨ha, hp⟩
    exact hc.pageCopied hs hsrc

section

/-- A memory with one area and one page of it. -/
def onePage (la : Word) : Option Frames :=
  [FrameOp.setup_pgdir 0, .pgdir_alloc_page 0 la (PTE_U ||| PTE_W)].foldlM
    (FrameOp.step eightPages) (Frames.boot (fun _ _ => 0#32) (fun _ _ => 0#32) fun _ => true)

def oneArea (vma : Vma) : Mm := (mm_create 0).linked [vma]

theorem dup_mmap_iff_onePage : ∃ s s' dst',
    onePage 0x10001000#32 = some s ∧
    dup_mmap eightPages (setup_pgdir s 1) (mm_create 1)
      (oneArea ⟨0x10001000#32, 0x10002000#32, VM_WRITE⟩) = some (s', dst', true) ∧
    Duplicated s s' 1 0 [⟨0x10001000#32, 0x10002000#32, VM_WRITE⟩] := by
  have h : ((onePage 0x10001000#32).bind fun s =>
      (dup_mmap eightPages (setup_pgdir s 1) (mm_create 1)
        (oneArea ⟨0x10001000#32, 0x10002000#32, VM_WRITE⟩)).map fun r =>
          (decide (0 ∈ s.dirs ∧ 1 ∉ s.dirs), r.2.2)) = some (true, true) := by
    decide +kernel
  obtain ⟨s, hs, h⟩ := Option.bind_eq_some_iff.1 h
  obtain ⟨⟨s', dst', ok⟩, hdup, hv⟩ := Option.map_eq_some_iff.1 h
  obtain ⟨hdirs, hok⟩ := Prod.mk.inj hv
  obtain ⟨h0, h1⟩ := of_decide_eq_true hdirs
  obtain rfl : ok = true := hok
  refine ⟨s, s', dst', hs, hdup, ?_⟩
  apply (dup_mmap_iff eightPages s s' 1 _ dst' (run_settled (boot_settled _ _ _) hs) h0 h1 hdup).2
  intro vma hvma la hal hlo hlt hsk
  obtain rfl := List.mem_singleton.1 hvma
  have h2 : 0x10001000 ≤ la.toNat := hlo
  have h3 : la.toNat < 0x10002000 := hlt
  have h4 : la.toNat % 4194304 < 0x10001000 % 4194304 := hsk.2
  omega

/-- The page at the start of the second table is lost: the walk goes from `0x10001000`, where
there is no page table, to `0x10401000`. -/
theorem firstPage_lost : ∃ s s' dst',
    onePage 0x10400000#32 = some s ∧
    dup_mmap eightPages (setup_pgdir s 1) (mm_create 1)
      (oneArea ⟨0x10001000#32, 0x10402000#32, VM_WRITE⟩) = some (s', dst', true) ∧
    ¬ Duplicated s s' 1 0 [⟨0x10001000#32, 0x10402000#32, VM_WRITE⟩] := by
  have h : ((onePage 0x10400000#32).bind fun s =>
      (dup_mmap eightPages (setup_pgdir s 1) (mm_create 1)
        (oneArea ⟨0x10001000#32, 0x10402000#32, VM_WRITE⟩)).map fun r =>
          (r.2.2, ptep_present (s.pte 0 0x10400000#32),
            ptep_present (r.1.pte 1 0x10400000#32))) = some (true, true, false) := by
    decide +kernel
  obtain ⟨s, hs, h⟩ := Option.bind_eq_some_iff.1 h
  obtain ⟨⟨s', dst', ok⟩, hdup, hv⟩ := Option.map_eq_some_iff.1 h
  obtain ⟨hok, hv⟩ := Prod.mk.inj hv
  obtain ⟨hp, hp'⟩ := Prod.mk.inj hv
  obtain rfl : ok = true := hok
  refine ⟨s, s', dst', hs, hdup, ?_⟩
  rintro ⟨hpages, -⟩
  have hpres := (hpages _ (List.mem_singleton.2 rfl) 0x10400000#32 (by decide) (by decide)
    (by decide)).present
  rw [hp, hp'] at hpres
  cases hpres

end

end nehcpu.kernel.frames
