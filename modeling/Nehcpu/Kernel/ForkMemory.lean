-- What the fork asks of the allocator, in order, and the copy of a memory by these requests: it
-- goes through, or the first request that is refused decides how it ends.
import Nehcpu.Kernel.Fork
import Nehcpu.Kernel.LoadProgram

namespace nehcpu.kernel.fork

open cpu frames refcount intervals Function

/-! ## Requests -/

/-- `object` is a structure of `kmalloc`, `stack` the pages of a kernel stack, `page` a page
directory or a page table, and `copy` the page that `copy_range` copies a page to. -/
inductive Request
  | object
  | stack
  | page
  | copy
deriving DecidableEq, Repr

/-- What the allocator looks at. -/
structure Supply where
  free : Page → Bool
  tick : Nat

def supply (s : Frames) : Supply := ⟨s.free, s.tick⟩

/-- The supply afterwards, or nothing where the allocator refuses. -/
def Request.serve (A : PageAllocator) (u : Supply) : Request → Option Supply
  | .object => if A.memory u.tick then some { u with tick := u.tick + 1 } else none
  | .stack => (A.pickRun KSTACKPAGE u.free u.tick).map fun base =>
    ⟨fun page => if InRun base KSTACKPAGE page then false else u.free page, u.tick + 1⟩
  | .page | .copy => (A.pick u.free u.tick).map fun page =>
    ⟨update u.free page false, u.tick + 1⟩

/-- The requests in order, up to the first that is refused. -/
def serve (A : PageAllocator) : List Request → Supply → Except Request Supply
  | [], u => .ok u
  | r :: rs, u =>
    match r.serve A u with
    | none => .error r
    | some u => serve A rs u

section

variable {A : PageAllocator} {u : Supply}

theorem serve_append (rs rs' : List Request) :
    serve A (rs ++ rs') u = serve A rs u >>= serve A rs' := by
  induction rs generalizing u with
  | nil => rfl
  | cons r rs ih =>
    rw [List.cons_append]
    unfold serve
    split
    · rfl
    · exact ih

/-! ## The requests of `dup_mmap` -/

/-- The pages that the walk of `copy_range` finds present. -/
def presentPages (s : Frames) (src : Nat) (stop : Word) : Nat → Word → List Word
  | 0, _ => []
  | rounds + 1, start =>
    match s.table src (PDX start) with
    | none =>
      let start := ROUNDDOWN_2N (start + PTSIZE) PGSHIFT
      if start ≠ 0#32 ∧ start < stop then presentPages s src stop rounds start else []
    | some _ =>
      let next := start + PGSIZE
      let rest := if next ≠ 0#32 ∧ next < stop then presentPages s src stop rounds next else []
      if ptep_present (s.pte src start) then start :: rest else rest

/-- For each page its copy, behind a page table where there is none yet in `tables`. -/
def pageRequests : List Word → List Nat → List Request
  | [], _ => []
  | la :: las, tables =>
    (if PDX la ∈ tables then [.copy] else [.page, .copy]) ++ pageRequests las (PDX la :: tables)

/-- The page tables then. -/
def tablesOf (las : List Word) (tables : List Nat) : List Nat :=
  las.foldl (fun tables la => PDX la :: tables) tables

def areaPages (s : Frames) (src : Nat) (vma : Vma) : List Word :=
  presentPages s src vma.vm_end NPAGES vma.vm_start

/-- The structure of each area, and its pages. -/
def areaRequests (s : Frames) (src : Nat) : List Vma → List Nat → List Request
  | [], _ => []
  | vma :: vmas, tables =>
    let las := areaPages s src vma
    .object :: (pageRequests las tables ++ areaRequests s src vmas (tablesOf las tables))

end

end nehcpu.kernel.fork

namespace nehcpu.kernel.frames

open cpu fork refcount intervals Function

/-! ## One page -/

/-- The copy in progress: what the child has got stands in its areas. -/
structure Copying (s0 : Frames) (d : Nat) (s : Frames) (mm : Mm) (tables : List Nat) : Prop where
  building : Building s0 d s mm
  clean : ∀ la, s.pte d la ≠ 0#32 → InVmas mm.mmap_list la
  tables : ∀ la, s.table d (PDX la) ≠ none ↔ PDX la ∈ tables

/-- A part of the copy ends as its requests do. Without a page for a copy there is no end. -/
def Obeys (r : Except Request Supply) (x : Option (Frames × Bool)) (Q F : Frames → Prop) :
    Prop :=
  match r with
  | .ok u => ∃ s, x = some (s, true) ∧ supply s = u ∧ Q s
  | .error .copy => x = none
  | .error _ => ∃ s, x = some (s, false) ∧ F s

theorem Obeys.imp {r : Except Request Supply} {x : Option (Frames × Bool)}
    {Q Q' F F' : Frames → Prop} (h : Obeys r x Q F) (hQ : ∀ s, Q s → Q' s)
    (hF : ∀ s, F s → F' s) : Obeys r x Q' F' := by
  rcases r with r | u
  · cases r with
    | copy => exact h
    | object | stack | page =>
      obtain ⟨s, hx, hs⟩ := h
      exact ⟨s, hx, hF s hs⟩
  · obtain ⟨s, hx, hu, hs⟩ := h
    exact ⟨s, hx, hu, hQ s hs⟩

section

variable {A : PageAllocator} {s0 s s' : Frames} {src d : Nat} {mm : Mm} {tables : List Nat}
  {la : Word}

/-- The parent's page tables are as they were. -/
theorem Copying.source (h : Copying s0 d s mm tables) (h0 : Settled s0) (hsrc : src ∈ s0.dirs) :
    (∀ i, s.table src i = s0.table src i) ∧ ∀ la, s.pte src la = s0.pte src la := by
  have hne : src ≠ d := fun he => h.building.fresh (he ▸ hsrc)
  have htab : ∀ i, s.table src i = s0.table src i := by
    intro i
    unfold Frames.table
    rw [h.building.others src hne]
  refine ⟨htab, ?_⟩
  intro la
  unfold Frames.pte
  rw [htab]
  rcases ht : s0.table src (PDX la) with _ | t
  · rfl
  · have htf := (h0.table ⟨src, hsrc, _, PDX_lt la, ht⟩).2.1
    show s.mem t (PTX la) = s0.mem t (PTX la)
    rw [(h.building.taken t htf).2.2]

/-- A new page table for the address. -/
theorem Copying.newTable {t : Page} (h : Copying s0 d s mm tables) (hla : InVmas mm.mmap_list la)
    (hn : s.table d (PDX la) = none) (hf : s.free t = true) :
    Copying s0 d (frames.newTable (s.taken t) d la t) mm (PDX la :: tables) ∧
      ∀ a, (frames.newTable (s.taken t) d la t).pte d a = s.pte d a := by
  have hb := h.building
  have hpte := pte_newTable hb.settled hb.dir hn hf
  refine ⟨⟨hb.newTable hla hn hf, ?_, ?_⟩, hpte⟩
  · intro a ha
    rw [hpte] at ha
    exact h.clean a ha
  · intro a
    rw [table_newTable, List.mem_cons, ← h.tables a]
    by_cases he : PDX a = PDX la
    · simp [he]
    · simp only [he, and_false, if_false, false_or]

/-- A page for the copy of `q`, where the page table is there. -/
theorem Copying.added {page q t : Page} {perm : Word} (h : Copying s0 d s mm tables)
    (hla : InVmas mm.mmap_list la) (ht : s.table d (PDX la) = some t) (ha : s.pte d la = 0#32)
    (hf : s.free page = true) (hq : ¬ s.IsTable q) (hperm : perm < PGSIZE) :
    let s' := (page_insert A.toAllocator (copy_page (s.taken page) page q) d page la perm).2
    Copying s0 d s' mm (PDX la :: tables) ∧ supply s' = ⟨update s.free page false, s.tick + 1⟩ ∧
      ∀ la', ¬ SamePage la' la → s'.pte d la' = s.pte d la' := by
  intro s'
  have hb := h.building
  have hadd := PageAdded.of_taken hb.settled hb.dir hf ht ha hperm
  obtain ⟨s1, hs1⟩ : ∃ s1, s1 =
    (page_ref_inc (s.taken page) page).store ⟨t, PTX la⟩ (page2pa page ||| PTE_P ||| perm) :=
    ⟨_, rfl⟩
  rw [← hs1] at hadd
  -- the contents may as well come last
  have hs' : s' = copy_page s1 page q := by
    have htp : t ≠ page := by
      rintro rfl
      exact hb.settled.not_table hf ⟨d, hb.dir, _, PDX_lt la, ht⟩
    have htq : q ≠ t := by
      rintro rfl
      exact hq ⟨d, hb.dir, _, PDX_lt la, ht⟩
    have htab : (copy_page (s.taken page) page q).table d (PDX la) = some t := ht
    have hmem : (copy_page (s.taken page) page q).mem t = s.mem t := update_of_ne htp _ _
    have hpte : (copy_page (s.taken page) page q).pte d la = 0#32 := by
      rw [pte_eq htab, hmem, ← ha, pte_eq ht]
    have hins := @page_insert_absent A.toAllocator _ _ page _ perm _ htab (by rw [hpte]; rfl)
    rw [show s' = _ from hins, hs1]
    unfold frames.copy_page Frames.store page_ref_inc Frames.taken
    simp only [update_of_ne htp, update_of_ne htq]
    rw [update_comm htp]
  have hcop := hb.added hla ha hperm hadd
  have hn1 : ¬ s1.IsTable page := hadd.notTable
  have hpte : ∀ a, s'.pte d a = s1.pte d a := by
    intro a
    have hm : ∀ p, s1.IsTable p → (copy_page s1 page q).mem p = s1.mem p := by
      intro p hp
      refine update_of_ne ?_ _ _
      rintro rfl
      exact hn1 hp
    have hdirs : (copy_page s1 page q).pgdirs = s1.pgdirs := rfl
    rw [hs']
    exact pte_of_tables hcop.dir hdirs hm a
  have htab : ∀ i, s'.table d i = s1.table d i := by
    intro i
    rw [hs']
    rfl
  refine ⟨⟨?_, ?_, ?_⟩, ?_, ?_⟩
  · rw [hs']
    exact hcop.copied (hb.free hf) hn1 q
  · intro a hz
    by_cases hs : SamePage a la
    · exact hla.samePage hb.areas hs
    · rw [hpte, hadd.pte, if_neg hs] at hz
      exact h.clean a hz
  · intro a
    rw [htab, hadd.table, List.mem_cons, ← h.tables a]
    by_cases he : PDX a = PDX la
    · simp [he]
    · simp only [he, if_false, false_or]
  · rw [hs', hs1]
    rfl
  · intro a hs
    rw [hpte, hadd.pte, if_neg hs]

end

section

variable {A : PageAllocator} {s0 s s1 : Frames} {src d : Nat} {mm : Mm} {tables : List Nat}
  {la : Word} {pte : pte_t}

/-- What is left of a page when the page table is there. -/
theorem copyPage_of_table {ptep : PtePtr}
    (hg : get_pte A.toAllocator s d la true = (some ptep, s1)) :
    copyPage A.toAllocator s d la pte =
      match A.pick s1.free s1.tick with
      | none => none
      | some npage => some ((page_insert A.toAllocator
          (copy_page (s1.taken npage) npage (pte2page pte)) d npage la (pte &&& PTE_USER)).2,
          true) := by
  unfold copyPage
  rw [hg]
  unfold alloc_page
  simp only
  cases A.pick s1.free s1.tick with
  | none => rfl
  | some npage => rfl

theorem Copying.last {t : Page} (h : Copying s0 d s mm tables) (hla : InVmas mm.mmap_list la)
    (ht : s.table d (PDX la) = some t) (ha : s.pte d la = 0#32)
    (hq : ¬ s.IsTable (pte2page pte)) :
    Obeys (serve A [.copy] (supply s))
      (match A.pick s.free s.tick with
      | none => none
      | some npage => some ((page_insert A.toAllocator
          (copy_page (s.taken npage) npage (pte2page pte)) d npage la (pte &&& PTE_USER)).2,
          true))
      (fun s' => Copying s0 d s' mm (PDX la :: tables) ∧
        ∀ la', ¬ SamePage la' la → s'.pte d la' = s.pte d la')
      fun s' => Building s0 d s' mm := by
  unfold serve serve Request.serve supply
  simp only
  rcases hp : A.pick s.free s.tick with _ | npage
  · exact rfl
  · obtain ⟨hc, hu, hpte⟩ :=
      h.added (A := A) hla ht ha (A.pick_free hp) hq (PTE_USER_lt pte)
    exact ⟨_, rfl, hu, hc, hpte⟩

/-- `copyPage` ends as its requests do. -/
theorem copyPage_obeys (h : Copying s0 d s mm tables) (hla : InVmas mm.mmap_list la)
    (ha : s.pte d la = 0#32) (hq : ¬ s.IsTable (pte2page pte))
    (hqf : s.free (pte2page pte) = false) :
    Obeys (serve A (if PDX la ∈ tables then [.copy] else [.page, .copy]) (supply s))
      (copyPage A.toAllocator s d la pte)
      (fun s' => Copying s0 d s' mm (PDX la :: tables) ∧
        ∀ la', ¬ SamePage la' la → s'.pte d la' = s.pte d la')
      fun s' => Building s0 d s' mm := by
  by_cases hmem : PDX la ∈ tables
  · obtain ⟨t, ht⟩ := Option.ne_none_iff_exists'.1 ((h.tables la).2 hmem)
    have hg : get_pte A.toAllocator s d la true = (some ⟨t, PTX la⟩, s) := by
      unfold get_pte
      rw [ht]
    rw [if_pos hmem, copyPage_of_table hg]
    exact h.last hla ht ha hq
  · have ht : s.table d (PDX la) = none := by
      by_contra hne
      exact hmem ((h.tables la).1 hne)
    rw [if_neg hmem]
    unfold serve Request.serve supply
    simp only
    rcases hp : A.pick s.free s.tick with _ | t
    · -- no page table: the page fault of the child would have been the same
      have hg : get_pte A.toAllocator s d la true = (none, { s with tick := s.tick + 1 }) := by
        unfold get_pte alloc_page
        rw [ht, hp]
        rfl
      refine ⟨{ s with tick := s.tick + 1 }, ?_, h.building.tick _⟩
      unfold copyPage
      rw [hg]
    · have hf := A.pick_free hp
      have hg : get_pte A.toAllocator s d la true =
          (some ⟨t, PTX la⟩, frames.newTable (s.taken t) d la t) := by
        unfold get_pte alloc_page
        rw [ht, hp]
        rfl
      obtain ⟨h1, hpte⟩ := h.newTable hla ht hf
      have hq1 : ¬ (frames.newTable (s.taken t) d la t).IsTable (pte2page pte) := by
        rw [isTable_newTable (s := s) h.building.dir ht]
        rintro (he | hq1)
        · rw [he, hf] at hqf
          cases hqf
        · exact hq hq1
      have ht1 : (frames.newTable (s.taken t) d la t).table d (PDX la) = some t := by
        rw [table_newTable, if_pos ⟨rfl, rfl⟩]
      have hlast : Obeys (serve A [.copy] (supply (frames.newTable (s.taken t) d la t))) _ _ _ :=
        h1.last hla ht1 (by rw [hpte, ha]) hq1
      rw [copyPage_of_table hg]
      refine hlast.imp ?_ fun _ hb => hb
      rintro s' ⟨hc, hrest⟩
      refine ⟨⟨hc.building, hc.clean, fun a => (hc.tables a).trans ?_⟩, ?_⟩
      · simp only [List.mem_cons, or_self_left]
      · intro a hs
        rw [hrest a hs, hpte]

end

/-! ## The walk -/

theorem Obeys.bind {r : Except Request Supply} {r' : Supply → Except Request Supply}
    {x : Option (Frames × Bool)} {y : Frames → Option (Frames × Bool)} {Q Q' F : Frames → Prop}
    (hy : ∀ s, Q s → Obeys (r' (supply s)) (y s) Q' F) :
    Obeys r x Q F → Obeys (r >>= r')
      (match x with
      | none => none
      | some (s, false) => some (s, false)
      | some (s, true) => y s) Q' F := by
  intro h
  rcases r with r | u
  · cases r with
    | copy =>
      obtain rfl : x = none := h
      exact rfl
    | object | stack | page =>
      obtain ⟨s, rfl, hs⟩ := h
      exact ⟨s, rfl, hs⟩
  · obtain ⟨s, rfl, rfl, hs⟩ := h
    exact hy s hs

section

variable {A : PageAllocator} {s0 : Frames} {src d : Nat} {mm : Mm} {stop : Word}

theorem Copying.obeys_nil {s : Frames} {tables : List Nat} (h : Copying s0 d s mm tables) :
    Obeys (serve A [] (supply s)) (some (s, true)) (fun s' => Copying s0 d s' mm tables)
      fun s' => Building s0 d s' mm :=
  ⟨s, rfl, rfl, h⟩

/-- The loop of `copy_range` ends as its requests do. -/
theorem copyLoop_obeys (h0 : Settled s0) (hsrc : src ∈ s0.dirs) (htop : stop ≤ USERTOP) :
    ∀ (rounds : Nat) (start : Word) (s : Frames) (tables : List Nat), Copying s0 d s mm tables →
      start.toNat % 4096 = 0 → start < stop →
      (∀ la, start ≤ la → la < stop → InVmas mm.mmap_list la ∧ s.pte d la = 0#32) →
      Obeys (serve A (pageRequests (presentPages s0 src stop rounds start) tables) (supply s))
        (copyLoop A.toAllocator d src stop rounds start s)
        (fun s' =>
          Copying s0 d s' mm (tablesOf (presentPages s0 src stop rounds start) tables))
        fun s' => Building s0 d s' mm := by
  intro rounds
  induction rounds with
  | zero =>
    intro start s tables h _ _ _
    exact h.obeys_nil
  | succ rounds ih =>
    intro start s tables h hal hlt hz
    have hlt' : start.toNat < stop.toNat := hlt
    have htop' : stop.toNat ≤ 2147483648 := htop
    obtain ⟨htab, hpte⟩ := h.source h0 hsrc
    -- what the loop does at the next address
    have hgo : ∀ (next : Word) (s1 : Frames) (tables1 : List Nat), Copying s0 d s1 mm tables1 →
        next.toNat % 4096 = 0 → start.toNat < next.toNat →
        (∀ la, next ≤ la → la < stop → s1.pte d la = 0#32) →
        Obeys
          (serve A (pageRequests (if next ≠ 0#32 ∧ next < stop then
            presentPages s0 src stop rounds next else []) tables1) (supply s1))
          (if next ≠ 0#32 ∧ next < stop then copyLoop A.toAllocator d src stop rounds next s1
            else some (s1, true))
          (fun s' => Copying s0 d s' mm (tablesOf (if next ≠ 0#32 ∧ next < stop then
            presentPages s0 src stop rounds next else []) tables1))
          fun s' => Building s0 d s' mm := by
      intro next s1 tables1 h1 hal1 hlt1 hz1
      by_cases hnext : next ≠ 0#32 ∧ next < stop
      · simp only [if_pos hnext]
        apply ih next s1 tables1 h1 hal1 hnext.2
        intro la hlo hhi
        have hlo' : next.toNat ≤ la.toNat := hlo
        have hla : start ≤ la := by
          show start.toNat ≤ la.toNat
          omega
        exact ⟨(hz la hla hhi).1, hz1 la hlo hhi⟩
      · simp only [if_neg hnext]
        exact h1.obeys_nil
    unfold copyLoop presentPages
    rw [get_pte_look, htab]
    rcases ht : s0.table src (PDX start) with _ | t
    · have hn : (ROUNDDOWN_2N (start + PTSIZE) PGSHIFT).toNat = start.toNat + 4194304 := by
        have hadd : (start + PTSIZE).toNat = start.toNat + 4194304 := by
          rw [BitVec.toNat_add, BitVec.toNat_ofNat]
          omega
        rw [toNat_page, hadd]
        omega
      refine hgo _ s tables h (by omega) (by omega) ?_
      intro la hlo hhi
      have hlo' : (ROUNDDOWN_2N (start + PTSIZE) PGSHIFT).toNat ≤ la.toNat := hlo
      refine (hz la ?_ hhi).2
      show start.toNat ≤ la.toNat
      omega
    · obtain ⟨next, hnext⟩ : ∃ next, next = start + PGSIZE := ⟨_, rfl⟩
      have hn : next.toNat = start.toNat + 4096 := by
        rw [hnext, BitVec.toNat_add, BitVec.toNat_ofNat]
        omega
      have hload : s.load ⟨t, PTX start⟩ = s0.pte src start := by
        rw [← hpte, pte_eq (show s.table src (PDX start) = some t by rw [htab, ht])]
        rfl
      have hafter : ∀ la, next ≤ la → start ≤ la ∧ ¬ SamePage la start := by
        intro la hlo
        have hlo' : next.toNat ≤ la.toNat := hlo
        refine ⟨?_, ?_⟩
        · show start.toNat ≤ la.toNat
          omega
        · rw [samePage_iff]
          omega
      simp only [Option.map_some, hload, ← hnext]
      by_cases hp : ptep_present (s0.pte src start) = true
      · -- the page is copied
        have hpres : ptep_present (s.pte src start) = true := by
          rw [hpte]
          exact hp
        have hdir : src ∈ s.dirs := by
          rw [h.building.dirs]
          exact Finset.mem_insert_of_mem hsrc
        obtain ⟨hqf, hq⟩ := h.building.settled.pte_mapped hdir hpres
        rw [hpte] at hq hqf
        obtain ⟨hla, ha⟩ := hz start (BitVec.le_refl _) hlt
        have hpage := copyPage_obeys (A := A) h hla ha hq hqf
        simp only [if_pos hp]
        unfold pageRequests
        rw [serve_append]
        refine Obeys.bind ?_ hpage
        rintro s1 ⟨h1, hrest⟩
        refine hgo next s1 _ h1 (by omega) (by omega) ?_
        intro la hlo hhi
        obtain ⟨hge, hne⟩ := hafter la hlo
        rw [hrest la hne]
        exact (hz la hge hhi).2
      · simp only [if_neg hp]
        refine hgo next s tables h (by omega) (by omega) ?_
        intro la hlo hhi
        exact (hz la (hafter la hlo).1 hhi).2

theorem copy_range_obeys (h0 : Settled s0) (hsrc : src ∈ s0.dirs) {s : Frames}
    {tables : List Nat} {vma : Vma} (hv : VmaOk vma) (h : Copying s0 d s mm tables)
    (hin : vma ∈ mm.mmap_list)
    (hz : ∀ la, vma.vm_start ≤ la → la < vma.vm_end → s.pte d la = 0#32) :
    Obeys (serve A (pageRequests (areaPages s0 src vma) tables) (supply s))
      (copy_range A.toAllocator s d src vma.vm_start vma.vm_end)
      (fun s' => Copying s0 d s' mm (tablesOf (areaPages s0 src vma) tables))
      fun s' => Building s0 d s' mm := by
  unfold copy_range
  rw [if_pos ⟨hv.start, hv.stop, hv.user⟩]
  obtain ⟨-, hlt, htop⟩ := hv.user
  apply copyLoop_obeys h0 hsrc htop NPAGES _ s tables h (toNat_of_pageAligned hv.start) hlt
  intro la hlo hhi
  exact ⟨⟨vma, hin, hlo, hhi⟩, hz la hlo hhi⟩

/-! ## All areas -/

/-- One more area, for which `vma_create` got its structure. -/
theorem Copying.area {s : Frames} {tables : List Nat} {vma : Vma} {list : List Vma}
    (h : Copying s0 d s mm tables) (hv : VmaOk vma)
    (hap : ∀ w ∈ mm.mmap_list, Apart Vma.lo Vma.hi vma w)
    (hi : insert_vma_struct mm.mmap_list vma = some list) :
    Copying s0 d { s with tick := s.tick + 1 } (mm.linked list) tables ∧
      list.Perm (vma :: mm.mmap_list) := by
  obtain ⟨hok, hperm⟩ := h.building.list.linked hv.user.2.1 hap hi
  have hb : Building s0 d s (mm.linked list) := h.building.area hperm rfl rfl hok hv
  refine ⟨⟨hb.tick _, ?_, h.tables⟩, hperm⟩
  intro la hne
  obtain ⟨w, hw, hr⟩ := h.clean la hne
  exact ⟨w, hperm.mem_iff.2 (List.mem_cons_of_mem vma hw), hr⟩

/-- The copy of all areas ends as its requests do. -/
def Duplicates (s0 : Frames) (d : Nat) (r : Except Request Supply)
    (x : Option (Frames × Mm × Bool)) : Prop :=
  match r with
  | .ok u => ∃ s mm, x = some (s, mm, true) ∧ supply s = u ∧ Building s0 d s mm
  | .error .copy => x = none
  | .error _ => ∃ s mm, x = some (s, mm, false) ∧ Building s0 d s mm

theorem dupLoop_obeys (h0 : Settled s0) (hsrc : src ∈ s0.dirs) :
    ∀ (vmas : List Vma) (s : Frames) (mm : Mm) (tables : List Nat), Copying s0 d s mm tables →
      (∀ v ∈ vmas, VmaOk v) → vmas.Pairwise (Apart Vma.lo Vma.hi) →
      (∀ v ∈ vmas, ∀ w ∈ mm.mmap_list, Apart Vma.lo Vma.hi v w) →
      Duplicates s0 d (serve A (areaRequests s0 src vmas tables) (supply s))
        (dupLoop A.toAllocator src vmas s mm) := by
  intro vmas
  induction vmas with
  | nil =>
    intro s mm tables h _ _ _
    exact ⟨s, mm, rfl, rfl, h.building⟩
  | cons vma vmas ih =>
    intro s mm tables h hv hvs hap
    have hv1 := hv vma List.mem_cons_self
    have hap1 := hap vma List.mem_cons_self
    unfold dupLoop vma_create areaRequests serve Request.serve supply
    cases hm : A.memory s.tick with
    | false => exact ⟨_, mm, rfl, h.building.tick _⟩
    | true =>
      obtain ⟨list, hi⟩ : ∃ list, insert_vma_struct mm.mmap_list vma = some list :=
        ⟨_, insert_vma_struct_eq h.building.list.separated hv1.user.2.1 hap1⟩
      obtain ⟨h1, hperm⟩ := h.area hv1 hap1 hi
      obtain ⟨s1, hs1⟩ : ∃ s1, s1 = ({ s with tick := s.tick + 1 } : Frames) := ⟨_, rfl⟩
      rw [← hs1] at h1
      have hin : vma ∈ (mm.linked list).mmap_list := hperm.mem_iff.2 List.mem_cons_self
      -- the area is empty, as it meets none of those that were there
      have hz : ∀ la, vma.vm_start ≤ la → la < vma.vm_end → s1.pte d la = 0#32 := by
        intro la hlo hhi
        by_contra hne
        rw [hs1] at hne
        obtain ⟨w, hw, hlo', hhi'⟩ := h.clean la hne
        have h2 : vma.lo ≤ la.toNat := hlo
        have h3 : la.toNat < vma.hi := hhi
        have h4 : w.lo ≤ la.toNat := hlo'
        have h5 : la.toNat < w.hi := hhi'
        rcases hap1 w hw with h6 | h6
        · omega
        · omega
      have hrest : ∀ v ∈ vmas, ∀ w ∈ (mm.linked list).mmap_list, Apart Vma.lo Vma.hi v w := by
        intro v hvm w hw
        rcases List.mem_cons.1 (hperm.mem_iff.1 hw) with rfl | hw
        · exact ((List.pairwise_cons.1 hvs).1 v hvm).symm
        · exact hap v (List.mem_cons_of_mem vma hvm) w hw
      have hrange := copy_range_obeys (A := A) h0 hsrc hv1 h1 hin hz
      have hsupply : (⟨s.free, s.tick + 1⟩ : Supply) = supply s1 := by
        rw [hs1]
        rfl
      have hpg : (mm.linked list).pgdir = d := h1.building.pgdir
      simp only [hi, if_true, ← hs1, hsupply, serve_append, hpg]
      rcases hr : serve A (pageRequests (areaPages s0 src vma) tables) (supply s1) with r | u
      · rw [hr] at hrange
        cases r with
        | copy =>
          have hnone : copy_range A.toAllocator s1 d src vma.vm_start vma.vm_end = none := hrange
          rw [hnone]
          exact rfl
        | object | stack | page =>
          obtain ⟨s2, he, hb⟩ := hrange
          rw [he]
          exact ⟨s2, _, rfl, hb⟩
      · rw [hr] at hrange
        obtain ⟨s2, he, rfl, h2⟩ := hrange
        rw [he]
        exact ih s2 _ _ h2 (fun v hvm => hv v (List.mem_cons_of_mem vma hvm))
          (List.pairwise_cons.1 hvs).2 hrest

end

end nehcpu.kernel.frames
