-- The end of a memory with the frames behind it: `exit_mmap` takes the pages out of the areas,
-- then the page tables out of the directory, and each of them goes back once.
import Nehcpu.Kernel.Areas
import Nehcpu.Kernel.FrameCopy

namespace nehcpu.kernel.frames

open cpu refcount Function

/-! ## `exit_range` and `exit_mmap` -/

/-- The entry of the page directory goes, with its page table. -/
def exitEntry (s : Frames) (pgdir i : Nat) : Frames :=
  match s.table pgdir i with
  | none => s
  | some table =>
    let s := free_page s table
    { s with pgdirs := update s.pgdirs pgdir (update (s.pgdirs pgdir) i 0#32) }

/-- The loop of `exit_range`, with the rounds that are left at most. -/
def exitLoop (pgdir : Nat) (stop : Word) : Nat → Word → Frames → Frames
  | 0, _, s => s
  | rounds + 1, start, s =>
    let s := exitEntry s pgdir (PDX start)
    let start := start + PTSIZE
    if start ≠ 0#32 ∧ start < stop then exitLoop pgdir stop rounds start s else s

def exit_range (s : Frames) (pgdir : Nat) (start stop : Word) : Option Frames :=
  if pageAligned start ∧ pageAligned stop ∧ USER_ACCESS start stop then
    some (exitLoop pgdir stop NPAGES (ROUNDDOWN_2N start PTSHIFT) s)
  else none

def exit_mmap (A : Allocator) (s : Frames) (mm : Mm) : Option Frames :=
  if mm.mm_count = 0 then
    (mm.mmap_list.foldlM (fun s vma => unmap_range A s mm.pgdir vma.vm_start vma.vm_end) s).bind
      fun s => mm.mmap_list.foldlM (fun s vma => exit_range s mm.pgdir vma.vm_start vma.vm_end) s
  else none

/-! ## The calls of `free_page` -/

/-- What `page_remove_pte` hands to `free_page`. -/
def removeFrees (s : Frames) (ptep : PtePtr) : List Page :=
  if ptep_present (s.load ptep) then
    let page := pte2page (s.load ptep)
    if (page_ref_dec s page).ref page = 0 then [page] else []
  else []

/-- What the loop of `unmap_range` hands to `free_page`, in its order. -/
def unmapFrees (A : Allocator) (pgdir : Nat) (stop : Word) : Nat → Word → Frames → List Page
  | 0, _, _ => []
  | rounds + 1, start, s =>
    match get_pte A s pgdir start false with
    | (none, s) =>
      let start := ROUNDDOWN_2N (start + PTSIZE) PTSHIFT
      if start ≠ 0#32 ∧ start < stop then unmapFrees A pgdir stop rounds start s else []
    | (some ptep, s) =>
      let freed := if s.load ptep ≠ 0#32 then removeFrees s ptep else []
      let s := if s.load ptep ≠ 0#32 then page_remove_pte s ptep else s
      let start := start + PGSIZE
      freed ++ if start ≠ 0#32 ∧ start < stop then unmapFrees A pgdir stop rounds start s else []

/-- What the loop of `exit_range` hands to `free_page`, in its order. -/
def exitFrees (pgdir : Nat) (stop : Word) : Nat → Word → Frames → List Page
  | 0, _, _ => []
  | rounds + 1, start, s =>
    let freed := (s.table pgdir (PDX start)).toList
    let s := exitEntry s pgdir (PDX start)
    let start := start + PTSIZE
    freed ++ if start ≠ 0#32 ∧ start < stop then exitFrees pgdir stop rounds start s else []

/-- A pass over the areas. -/
def passFrees (step : Frames → Vma → Option Frames) (frees : Frames → Vma → List Page) :
    List Vma → Frames → List Page
  | [], _ => []
  | vma :: vmas, s => frees s vma ++ (step s vma).elim [] (passFrees step frees vmas)

/-- Every page that `exit_mmap` hands to `free_page`, as often as it does. -/
def exitMmapFrees (A : Allocator) (s : Frames) (mm : Mm) : List Page :=
  let unmap s (vma : Vma) := unmap_range A s mm.pgdir vma.vm_start vma.vm_end
  let exit s (vma : Vma) := exit_range s mm.pgdir vma.vm_start vma.vm_end
  passFrees unmap (fun s vma => unmapFrees A mm.pgdir vma.vm_end NPAGES vma.vm_start s)
      mm.mmap_list s ++
    (mm.mmap_list.foldlM unmap s).elim [] (passFrees exit
      (fun s vma => exitFrees mm.pgdir vma.vm_end NPAGES (ROUNDDOWN_2N vma.vm_start PTSHIFT) s)
      mm.mmap_list)

/-! ## Pages that go back -/

/-- Between the two states just the pages of the list went back, each once. -/
structure Freed (s s' : Frames) (l : List Page) : Prop where
  nodup : l.Nodup
  mem : ∀ p, p ∈ l ↔ s.free p = false ∧ s'.free p = true
  keep : ∀ p, s.free p = true → s'.free p = true

theorem Freed.nil {s s' : Frames} (h : s'.free = s.free) : Freed s s' [] := by
  refine ⟨List.nodup_nil, ?_, ?_⟩
  · intro p
    rw [h]
    refine ⟨fun hp => (List.not_mem_nil hp).elim, ?_⟩
    rintro ⟨h1, h2⟩
    rw [h1] at h2
    cases h2
  · intro p hp
    rw [h, hp]

theorem Freed.one {s s' : Frames} {page : Page} (hp : s.free page = false)
    (h : s'.free = update s.free page true) : Freed s s' [page] := by
  refine ⟨List.nodup_singleton page, ?_, ?_⟩
  · intro p
    rw [List.mem_singleton, h, update_apply]
    split
    · next he => exact ⟨fun _ => ⟨he ▸ hp, rfl⟩, fun _ => he⟩
    · next hne =>
      refine ⟨fun he => absurd he hne, ?_⟩
      rintro ⟨h1, h2⟩
      rw [h1] at h2
      cases h2
  · intro p hf
    rw [h, update_apply]
    split
    · rfl
    · exact hf

/-- What went back first is free when the rest goes. -/
theorem Freed.trans {s s' s'' : Frames} {l l' : List Page} (h : Freed s s' l)
    (h' : Freed s' s'' l') : Freed s s'' (l ++ l') := by
  refine ⟨?_, ?_, fun p hp => h'.keep p (h.keep p hp)⟩
  · refine List.nodup_append.2 ⟨h.nodup, h'.nodup, ?_⟩
    rintro p hp q hq rfl
    have h1 := ((h.mem p).1 hp).2
    rw [((h'.mem p).1 hq).1] at h1
    cases h1
  · intro p
    rw [List.mem_append, h.mem, h'.mem]
    constructor
    · rintro (⟨h1, h2⟩ | ⟨h1, h2⟩)
      · exact ⟨h1, h'.keep p h2⟩
      · refine ⟨?_, h2⟩
        rw [← Bool.not_eq_true]
        intro hf
        rw [h.keep p hf] at h1
        cases h1
    · rintro ⟨h1, h2⟩
      cases hf : s'.free p with
      | true => exact Or.inl ⟨h1, rfl⟩
      | false => exact Or.inr ⟨rfl, h2⟩

/-! ## The first pass -/

/-- The address of an entry. -/
def slotAddr (i j : Nat) : Nat := i * 4194304 + j * 4096

/-- An entry for an address from `start` up to `stop`. -/
def Between (start stop : Word) (i j : Nat) : Prop :=
  j < 1024 ∧ start.toNat ≤ slotAddr i j ∧ slotAddr i j < stop.toNat

/-- The word stands in a page table of the directory, for an entry of `S`, and is present. -/
def PresentIn (d : Nat) (S : Nat → Nat → Prop) (s : Frames) (p : Page) (j : Nat) : Prop :=
  ∃ i < 1024, s.table d i = some p ∧ S i j ∧ ptep_present (s.mem p j) = true

/-- The present entries of `S` are cleared, each page goes back with its last entry, and
nothing else changes. -/
structure Unmapped (d : Nat) (S : Nat → Nat → Prop) (s s' : Frames) (l : List Page) : Prop where
  settled : Settled s'
  pgdirs : s'.pgdirs = s.pgdirs
  dirs : s'.dirs = s.dirs
  tick : s'.tick = s.tick
  freesUnmapped : Drops s s'
  freed : Freed s s' l
  cleared : ∀ p j, PresentIn d S s p j → s'.mem p j = 0#32
  kept : ∀ p j, ¬ PresentIn d S s p j → s'.mem p j = s.mem p j

theorem Unmapped.table {d : Nat} {S : Nat → Nat → Prop} {s s' : Frames} {l : List Page}
    (h : Unmapped d S s s' l) : s'.table = s.table := by
  unfold Frames.table
  rw [h.pgdirs]

theorem Unmapped.refl {d : Nat} {S : Nat → Nat → Prop} {s : Frames} (h : Settled s)
    (hn : ∀ p j, ¬ PresentIn d S s p j) : Unmapped d S s s [] :=
  ⟨h, rfl, rfl, rfl, Drops.of_eq (fun _ => rfl) rfl, Freed.nil rfl,
    fun p j hp => absurd hp (hn p j), fun _ _ _ => rfl⟩

/-- Only the entries that stand in a page table matter. -/
theorem Unmapped.congr {d : Nat} {S S' : Nat → Nat → Prop} {s s' : Frames} {l : List Page}
    (h : Unmapped d S s s' l)
    (he : ∀ i j, i < 1024 → s.table d i ≠ none → (S' i j ↔ S i j)) : Unmapped d S' s s' l := by
  have hp : ∀ p j, PresentIn d S' s p j ↔ PresentIn d S s p j := by
    intro p j
    constructor
    · rintro ⟨i, hi, ht, hS, hpres⟩
      exact ⟨i, hi, ht, (he i j hi (by rw [ht]; exact nofun)).1 hS, hpres⟩
    · rintro ⟨i, hi, ht, hS, hpres⟩
      exact ⟨i, hi, ht, (he i j hi (by rw [ht]; exact nofun)).2 hS, hpres⟩
  refine ⟨h.settled, h.pgdirs, h.dirs, h.tick, h.freesUnmapped, h.freed, ?_, ?_⟩
  · intro p j hpj
    exact h.cleared p j ((hp p j).1 hpj)
  · intro p j hpj
    exact h.kept p j fun hq => hpj ((hp p j).2 hq)

theorem Unmapped.trans {d : Nat} {S S' : Nat → Nat → Prop} {s s' s'' : Frames} {l l' : List Page}
    (h : Unmapped d S s s' l) (h' : Unmapped d S' s' s'' l') :
    Unmapped d (fun i j => S i j ∨ S' i j) s s'' (l ++ l') := by
  have htab := h.table
  refine ⟨h'.settled, h'.pgdirs.trans h.pgdirs, h'.dirs.trans h.dirs, h'.tick.trans h.tick,
    h.freesUnmapped.trans h'.freesUnmapped, h.freed.trans h'.freed, ?_, ?_⟩
  · rintro p j ⟨i, hi, ht, hS, hpres⟩
    by_cases hfirst : PresentIn d S s p j
    · have hz := h.cleared p j hfirst
      rw [h'.kept p j, hz]
      rintro ⟨i', -, -, -, hpres'⟩
      rw [hz] at hpres'
      exact absurd hpres' (by decide)
    · apply h'.cleared p j
      have hk := h.kept p j hfirst
      refine ⟨i, hi, by rw [htab, ht], ?_, by rw [hk, hpres]⟩
      exact hS.resolve_left fun hS => hfirst ⟨i, hi, ht, hS, hpres⟩
  · intro p j hn
    have hfirst : ¬ PresentIn d S s p j := by
      rintro ⟨i, hi, ht, hS, hpres⟩
      exact hn ⟨i, hi, ht, Or.inl hS, hpres⟩
    have hk := h.kept p j hfirst
    rw [h'.kept p j, hk]
    rintro ⟨i, hi, ht, hS, hpres⟩
    rw [htab] at ht
    rw [hk] at hpres
    exact hn ⟨i, hi, ht, Or.inr hS, hpres⟩

section

variable {s : Frames} {d : Nat} {la : Word} {ptep : PtePtr}

/-- What `page_remove_pte` leaves beside the counts. -/
theorem page_remove_pte_effect (s : Frames) (ptep : PtePtr) :
    (page_remove_pte s ptep).tick = s.tick ∧
      (page_remove_pte s ptep).mem = (if ptep_present (s.load ptep) = true
        then (s.store ptep 0#32).mem else s.mem) ∧
      (page_remove_pte s ptep).free =
        (if ptep_present (s.load ptep) = true ∧ s.ref (pte2page (s.load ptep)) - 1 = 0
          then update s.free (pte2page (s.load ptep)) true else s.free) := by
  obtain ⟨page, hpage⟩ : ∃ page, page = pte2page (s.load ptep) := ⟨_, rfl⟩
  have href : (page_ref_dec s page).ref page = s.ref page - 1 := update_self _ _ _
  unfold page_remove_pte
  simp only [← hpage, href]
  by_cases hp : ptep_present (s.load ptep) = true
  · simp only [hp, if_true, true_and]
    by_cases hz : s.ref page - 1 = 0
    · simp only [if_pos hz]
      exact ⟨rfl, rfl, rfl⟩
    · simp only [if_neg hz]
      exact ⟨rfl, rfl, rfl⟩
  · rw [if_neg hp, if_neg hp, if_neg fun hc => hp hc.1]
    exact ⟨rfl, rfl, rfl⟩

theorem page_remove_pte_freed (h : Settled s) (hp : IsPte s d la ptep) :
    Freed s (page_remove_pte s ptep) (removeFrees s ptep) := by
  obtain ⟨page, hpage⟩ : ∃ page, page = pte2page (s.load ptep) := ⟨_, rfl⟩
  have href : (page_ref_dec s page).ref page = s.ref page - 1 := update_self _ _ _
  have hfree := (page_remove_pte_effect s ptep).2.2
  unfold removeFrees
  simp only [← hpage, href] at hfree ⊢
  by_cases hpres : ptep_present (s.load ptep) = true
  · have hent : entryPage (s.load ptep) = some page := entryPage_eq_some.2 ⟨hpres, hpage.symm⟩
    have hnf := (h.mapped (fun _ => le_rfl) hp hent).2.1
    rw [if_pos hpres]
    by_cases hz : s.ref page - 1 = 0
    · rw [if_pos hz]
      rw [if_pos ⟨hpres, hz⟩] at hfree
      exact Freed.one hnf hfree
    · rw [if_neg hz]
      rw [if_neg fun hc => hz hc.2] at hfree
      exact Freed.nil hfree
  · rw [if_neg hpres]
    rw [if_neg fun hc => hpres hc.1] at hfree
    exact Freed.nil hfree

theorem page_remove_pte_unmapped (h : Settled s) (hp : IsPte s d la ptep) :
    Unmapped d (fun i j => i = PDX la ∧ j = PTX la) s (page_remove_pte s ptep)
      (removeFrees s ptep) := by
  obtain ⟨hok, hr⟩ := page_remove_pte_spec h (fun _ => le_rfl) hp
  obtain ⟨htick, hmem, -⟩ := page_remove_pte_effect s ptep
  -- the word of the pointer is the only one that is present and asked for
  have hat : ∀ p j, PresentIn d (fun i j => i = PDX la ∧ j = PTX la) s p j ↔
      p = ptep.table ∧ j = ptep.index ∧ ptep_present (s.load ptep) = true := by
    intro p j
    constructor
    · rintro ⟨i, -, ht, ⟨rfl, rfl⟩, hpres⟩
      obtain rfl := Option.some_inj.1 (ht.symm.trans hp.table)
      rw [← hp.index] at hpres ⊢
      exact ⟨rfl, rfl, hpres⟩
    · rintro ⟨rfl, rfl, hpres⟩
      exact ⟨PDX la, PDX_lt la, hp.table, ⟨rfl, hp.index⟩, hpres⟩
  refine ⟨hok, hr.pgdirs, hr.dirs, htick, hr.drops h hp, page_remove_pte_freed h hp, ?_, ?_⟩
  · intro p j hpj
    obtain ⟨rfl, rfl, hpres⟩ := (hat p j).1 hpj
    rw [hmem, if_pos hpres]
    show (s.store ptep 0#32).load ptep = 0#32
    rw [load_store, if_pos rfl]
  · intro p j hpj
    rw [hmem]
    split
    · next hpres =>
      show (s.store ptep 0#32).load ⟨p, j⟩ = s.load ⟨p, j⟩
      rw [load_store, if_neg]
      rintro rfl
      exact hpj ((hat p j).2 ⟨rfl, rfl, hpres⟩)
    · rfl

end

theorem get_pte_look (A : Allocator) (s : Frames) (d : Nat) (la : Word) :
    get_pte A s d la false = ((s.table d (PDX la)).map fun table => ⟨table, PTX la⟩, s) := by
  unfold get_pte
  rcases s.table d (PDX la) with _ | t
  · rfl
  · rfl

/-- The entries of one page. -/
theorem slotAddr_eq {la : Word} (hal : la.toNat % 4096 = 0) {i j : Nat} (hj : j < 1024) :
    (i = PDX la ∧ j = PTX la) ↔ slotAddr i j = la.toNat := by
  unfold slotAddr
  rw [PDX_eq, PTX_eq]
  omega

/-- One round: the present entries up to the next address are gone. Beyond the end it passes
over entries without a page table only. -/
theorem unmapLoop_round {A : Allocator} {d : Nat} {start stop : Word} (rounds : Nat) {s : Frames}
    (h : Settled s) (hd : d ∈ s.dirs) (hal : start.toNat % 4096 = 0)
    (hals : stop.toNat % 4096 = 0) (hlt : start < stop) (htop : stop ≤ USERTOP) :
    ∃ s1 start1 freed, Unmapped d (Between start start1) s s1 freed ∧
      start1.toNat % 4096 = 0 ∧ start.toNat + 4096 ≤ start1.toNat ∧
      (∀ i j, Between start start1 i j → stop.toNat ≤ slotAddr i j → s.table d i = none) ∧
      unmapLoop A d stop (rounds + 1) start s =
        (if start1 ≠ 0#32 ∧ start1 < stop then unmapLoop A d stop rounds start1 s1 else s1) ∧
      unmapFrees A d stop (rounds + 1) start s =
        freed ++ if start1 ≠ 0#32 ∧ start1 < stop then unmapFrees A d stop rounds start1 s1
          else [] := by
  have hs : start.toNat < stop.toNat := hlt
  have ht : stop.toNat ≤ 2147483648 := htop
  rcases htab : s.table d (PDX start) with _ | t
  · -- no page table: the next directory entry
    have hadd : (start + PTSIZE).toNat = start.toNat + 4194304 := by
      rw [BitVec.toNat_add, BitVec.toNat_ofNat]
      omega
    have h1 : (ROUNDDOWN_2N (start + PTSIZE) PTSHIFT).toNat =
        (start.toNat + 4194304) / 4194304 * 4194304 := by
      rw [toNat_ROUNDDOWN_2N, hadd]
      rfl
    have hnone : ∀ i j, Between start (ROUNDDOWN_2N (start + PTSIZE) PTSHIFT) i j →
        s.table d i = none := by
      rintro i j ⟨hj, hlo, hhi⟩
      have hi : i = PDX start := by
        unfold slotAddr at hlo hhi
        rw [PDX_eq]
        omega
      rw [hi, htab]
    refine ⟨s, ROUNDDOWN_2N (start + PTSIZE) PTSHIFT, [], Unmapped.refl h ?_, by omega, by omega,
      fun i j hb _ => hnone i j hb, ?_, ?_⟩
    · rintro p j ⟨i, -, hi, hb, -⟩
      rw [hnone i j hb] at hi
      cases hi
    · rw [unmapLoop, get_pte_look, htab, Option.map_none]
    · rw [unmapFrees, get_pte_look, htab, Option.map_none, List.nil_append]
  · have hadd : (start + PGSIZE).toNat = start.toNat + 4096 := by
      rw [BitVec.toNat_add, BitVec.toNat_ofNat]
      omega
    have hp : IsPte s d start ⟨t, PTX start⟩ := ⟨hd, htab, rfl⟩
    have hone : ∀ i j, Between start (start + PGSIZE) i j ↔ i = PDX start ∧ j = PTX start := by
      intro i j
      have hx := PTX_lt start
      have hpos : slotAddr i j % 4096 = 0 := by
        unfold slotAddr
        omega
      constructor
      · rintro ⟨hj, hlo, hhi⟩
        exact (slotAddr_eq hal hj).2 (by omega)
      · rintro ⟨rfl, rfl⟩
        have he := (slotAddr_eq hal hx).1 ⟨rfl, rfl⟩
        exact ⟨hx, by omega, by omega⟩
    refine ⟨if s.load ⟨t, PTX start⟩ ≠ 0#32 then page_remove_pte s ⟨t, PTX start⟩ else s,
      start + PGSIZE, if s.load ⟨t, PTX start⟩ ≠ 0#32 then removeFrees s ⟨t, PTX start⟩ else [],
      ?_, by omega, by omega, ?_, ?_, ?_⟩
    · apply Unmapped.congr (S := fun i j => i = PDX start ∧ j = PTX start)
      · by_cases hz : s.load ⟨t, PTX start⟩ = 0#32
        · rw [if_neg fun hne => hne hz, if_neg fun hne => hne hz]
          apply Unmapped.refl h
          rintro p j ⟨i, -, hi, ⟨rfl, rfl⟩, hpres⟩
          obtain rfl := Option.some_inj.1 (hi.symm.trans htab)
          have hw : s.mem p (PTX start) = 0#32 := hz
          rw [hw] at hpres
          exact absurd hpres (by decide)
        · rw [if_pos hz, if_pos hz]
          exact page_remove_pte_unmapped h hp
      · intro i j _ _
        exact hone i j
    · intro i j hb hst
      have := hb.2.2
      omega
    · rw [unmapLoop, get_pte_look, htab, Option.map_some]
    · rw [unmapFrees, get_pte_look, htab, Option.map_some]

/-- The loop clears the present entries of its range. -/
theorem unmapLoop_unmapped {A : Allocator} {d : Nat} {stop : Word}
    (hals : stop.toNat % 4096 = 0) (htop : stop ≤ USERTOP) :
    ∀ (rounds : Nat) (start : Word) (s : Frames), Settled s → d ∈ s.dirs →
      start.toNat % 4096 = 0 → start < stop → stop.toNat ≤ start.toNat + 4096 * rounds →
      Unmapped d (Between start stop) s (unmapLoop A d stop rounds start s)
        (unmapFrees A d stop rounds start s) := by
  intro rounds
  induction rounds with
  | zero =>
    intro start s _ _ _ hlt hr
    have hs : start.toNat < stop.toNat := hlt
    omega
  | succ rounds ih =>
    intro start s h hd hal hlt hr
    obtain ⟨s1, start1, freed, hu, hal1, hstep, hnone, heq, hfrees⟩ :=
      unmapLoop_round (A := A) rounds h hd hal hals hlt htop
    have hs : start.toNat < stop.toNat := hlt
    rw [heq, hfrees]
    by_cases hgo : start1 ≠ 0#32 ∧ start1 < stop
    · have hg : start1.toNat < stop.toNat := hgo.2
      have hd1 : d ∈ s1.dirs := by
        rw [hu.dirs]
        exact hd
      rw [if_pos hgo, if_pos hgo]
      apply (hu.trans (ih start1 s1 hu.settled hd1 hal1 hgo.2 (by omega))).congr
      intro i j _ _
      unfold Between
      omega
    · rw [if_neg hgo, if_neg hgo, List.append_nil]
      have hne : start1 ≠ 0#32 := by
        rintro rfl
        simp at hstep
      have hns : stop.toNat ≤ start1.toNat := BitVec.not_lt.1 fun h => hgo ⟨hne, h⟩
      apply hu.congr
      intro i j _ htab
      have hb := hnone i j
      unfold Between at hb ⊢
      constructor
      · rintro ⟨hj, hlo, hhi⟩
        exact ⟨hj, hlo, by omega⟩
      · rintro ⟨hj, hlo, hhi⟩
        refine ⟨hj, hlo, ?_⟩
        by_contra hge
        exact htab (hb ⟨hj, hlo, hhi⟩ (by omega))

theorem unmap_range_unmapped {A : Allocator} {d : Nat} {vma : Vma} {s : Frames} (h : Settled s)
    (hd : d ∈ s.dirs) (hv : VmaOk vma) :
    ∃ s', unmap_range A s d vma.vm_start vma.vm_end = some s' ∧
      Unmapped d (Between vma.vm_start vma.vm_end) s s'
        (unmapFrees A d vma.vm_end NPAGES vma.vm_start s) := by
  obtain ⟨-, hlt, htop⟩ := hv.user
  unfold unmap_range
  rw [if_pos ⟨hv.start, hv.stop, hv.user⟩]
  have hstop : vma.vm_end.toNat ≤ 2147483648 := htop
  have hrounds : vma.vm_end.toNat ≤ vma.vm_start.toNat + 4096 * NPAGES :=
    le_trans hstop (le_trans (by decide) (Nat.le_add_left (4096 * NPAGES) _))
  exact ⟨_, rfl, unmapLoop_unmapped (toNat_of_pageAligned hv.stop) htop NPAGES vma.vm_start s h hd
    (toNat_of_pageAligned hv.start) hlt hrounds⟩

/-- An entry for an address of an area. -/
def InAreasOf (vmas : List Vma) (i j : Nat) : Prop :=
  ∃ vma ∈ vmas, Between vma.vm_start vma.vm_end i j

theorem unmap_pass {A : Allocator} {d : Nat} : ∀ (vmas : List Vma) (s : Frames), Settled s →
    d ∈ s.dirs → (∀ vma ∈ vmas, VmaOk vma) →
    ∃ s', vmas.foldlM (fun s vma => unmap_range A s d vma.vm_start vma.vm_end) s = some s' ∧
      Unmapped d (InAreasOf vmas) s s'
        (passFrees (fun s vma => unmap_range A s d vma.vm_start vma.vm_end)
          (fun s vma => unmapFrees A d vma.vm_end NPAGES vma.vm_start s) vmas s) := by
  intro vmas
  induction vmas with
  | nil =>
    intro s h _ _
    refine ⟨s, rfl, Unmapped.refl h ?_⟩
    rintro p j ⟨i, -, -, ⟨vma, hv, -⟩, -⟩
    cases hv
  | cons vma vmas ih =>
    intro s h hd hok
    obtain ⟨s1, he, hu⟩ := unmap_range_unmapped (A := A) h hd (hok vma List.mem_cons_self)
    have hd1 : d ∈ s1.dirs := by
      rw [hu.dirs]
      exact hd
    obtain ⟨s2, he', hu'⟩ := ih s1 hu.settled hd1 fun w hw => hok w (List.mem_cons_of_mem vma hw)
    refine ⟨s2, ?_, ?_⟩
    · rw [List.foldlM_cons, he]
      exact he'
    · unfold passFrees
      rw [he]
      apply (hu.trans hu').congr
      intro i j _ _
      unfold InAreasOf
      rw [List.exists_mem_cons_iff]

/-! ## The second pass -/

/-- The page tables at the entries `T` of the directory go back, each once, and nothing else
changes. -/
structure Exited (d : Nat) (T : Nat → Prop) (s s' : Frames) (l : List Page) : Prop where
  settled : Settled s'
  dirs : s'.dirs = s.dirs
  tick : s'.tick = s.tick
  mem : s'.mem = s.mem
  freed : Freed s s' l
  frees : ∀ p, p ∈ l ↔ ∃ i < 1024, T i ∧ s.table d i = some p
  gone : ∀ i, T i → s.table d i ≠ none → s'.pgdirs d i = 0#32
  kept : ∀ d' i, ¬ (d' = d ∧ T i ∧ s.table d i ≠ none) → s'.pgdirs d' i = s.pgdirs d' i
  ref : ∀ p, p ∉ l → s'.ref p = s.ref p

theorem Exited.refl {d : Nat} {T : Nat → Prop} {s : Frames} (h : Settled s)
    (hT : ∀ i, T i → s.table d i = none) : Exited d T s s [] := by
  refine ⟨h, rfl, rfl, rfl, Freed.nil rfl, ?_, ?_, fun _ _ _ => rfl, fun _ _ => rfl⟩
  · intro p
    refine ⟨fun hp => (List.not_mem_nil hp).elim, ?_⟩
    rintro ⟨i, -, hi, ht⟩
    rw [hT i hi] at ht
    cases ht
  · intro i hi ht
    exact absurd (hT i hi) ht

theorem Exited.congr {d : Nat} {T T' : Nat → Prop} {s s' : Frames} {l : List Page}
    (h : Exited d T s s' l) (he : ∀ i, T' i ↔ T i) : Exited d T' s s' l := by
  have : T' = T := funext fun i => propext (he i)
  rw [this]
  exact h

/-- A page table that is left is the one that was there. -/
theorem Exited.table {d : Nat} {T : Nat → Prop} {s s' : Frames} {l : List Page}
    (h : Exited d T s s' l) (d' i : Nat) :
    (s'.table d' i = none ∧ d' = d ∧ T i) ∨
      (s'.table d' i = s.table d' i ∧ ¬ (d' = d ∧ T i ∧ s.table d i ≠ none)) := by
  by_cases hc : d' = d ∧ T i ∧ s.table d i ≠ none
  · obtain ⟨rfl, hT, ht⟩ := hc
    left
    refine ⟨?_, rfl, hT⟩
    unfold Frames.table
    rw [h.gone i hT ht, entryPage_zero]
  · right
    refine ⟨?_, hc⟩
    unfold Frames.table
    rw [h.kept d' i hc]

theorem Exited.maps {d : Nat} {T : Nat → Prop} {s s' : Frames} {l : List Page}
    (h : Exited d T s s' l) {k : Slot} (hk : s.maps k = none) : s'.maps k = none := by
  obtain ⟨d', i, j⟩ := k
  have hload : s'.load = s.load := by
    unfold Frames.load
    rw [h.mem]
  unfold Frames.maps at hk ⊢
  rw [hload]
  rcases h.table d' i with ⟨hn, -⟩ | ⟨he, -⟩
  · rw [hn]
    rfl
  · rw [he]
    exact hk

theorem Exited.trans {d : Nat} {T T' : Nat → Prop} {s s' s'' : Frames} {l l' : List Page}
    (h : Exited d T s s' l) (h' : Exited d T' s' s'' l') :
    Exited d (fun i => T i ∨ T' i) s s'' (l ++ l') := by
  refine ⟨h'.settled, h'.dirs.trans h.dirs, h'.tick.trans h.tick, h'.mem.trans h.mem,
    h.freed.trans h'.freed, ?_, ?_, ?_, ?_⟩
  · intro p
    rw [List.mem_append, h.frees, h'.frees]
    constructor
    · rintro (⟨i, hi, hT, ht⟩ | ⟨i, hi, hT, ht⟩)
      · exact ⟨i, hi, Or.inl hT, ht⟩
      · rcases h.table d i with ⟨hn, -⟩ | ⟨he, -⟩
        · rw [hn] at ht
          cases ht
        · exact ⟨i, hi, Or.inr hT, he.symm.trans ht⟩
    · rintro ⟨i, hi, hT, ht⟩
      rcases h.table d i with ⟨-, -, hT⟩ | ⟨he, hc⟩
      · exact Or.inl ⟨i, hi, hT, ht⟩
      · right
        have hne : s.table d i ≠ none := by
          rw [ht]
          exact nofun
        exact ⟨i, hi, hT.resolve_left fun hT => hc ⟨rfl, hT, hne⟩, he.trans ht⟩
  · intro i hT ht
    by_cases hfirst : T i
    · have hz := h.gone i hfirst ht
      rw [h'.kept d i, hz]
      rintro ⟨-, -, ht'⟩
      apply ht'
      unfold Frames.table
      rw [hz, entryPage_zero]
    · have hk := h.kept d i fun hc => hfirst hc.2.1
      apply h'.gone i (hT.resolve_left hfirst)
      unfold Frames.table at ht ⊢
      rw [hk]
      exact ht
  · intro d' i hn
    rw [h'.kept d' i, h.kept d' i fun hc => hn ⟨hc.1, Or.inl hc.2.1, hc.2.2⟩]
    rintro ⟨rfl, hT, ht⟩
    rcases h.table d' i with ⟨hnone, -⟩ | ⟨he, -⟩
    · exact ht hnone
    · rw [he] at ht
      exact hn ⟨rfl, Or.inr hT, ht⟩
  · intro p hp
    rw [List.mem_append, not_or] at hp
    rw [h'.ref p hp.2, h.ref p hp.1]

/-- An entry without a mapping gives its page table back. -/
theorem exitEntry_exited {s : Frames} (h : Settled s) {d i : Nat} (hd : d ∈ s.dirs)
    (hi : i < 1024) (hz : ∀ j < 1024, s.maps (d, i, j) = none) :
    Exited d (fun i' => i' = i) s (exitEntry s d i) (s.table d i).toList := by
  unfold exitEntry
  rcases ht : s.table d i with _ | t
  · apply Exited.refl h
    rintro i' rfl
    exact ht
  · obtain ⟨hr, hf, hc⟩ := h.table ⟨d, hd, i, hi, ht⟩
    obtain ⟨s', hs'⟩ : ∃ s', s' = { free_page s t with
      pgdirs := update (free_page s t).pgdirs d (update ((free_page s t).pgdirs d) i 0#32) } :=
      ⟨_, rfl⟩
    simp only
    have hpg : ∀ d' i', s'.pgdirs d' i' = if d' = d ∧ i' = i then 0#32 else s.pgdirs d' i' := by
      intro d' i'
      rw [hs']
      show update s.pgdirs d _ d' i' = _
      by_cases hdd : d' = d
      · subst hdd
        rw [update_self, update_apply]
        simp only [true_and]
        rfl
      · rw [update_of_ne hdd, if_neg fun hc => hdd hc.1]
    have htab : ∀ d' i', s'.table d' i' = if d' = d ∧ i' = i then none else s.table d' i' := by
      intro d' i'
      unfold Frames.table
      rw [hpg]
      split
      · exact entryPage_zero
      · rfl
    have hdirs : s'.dirs = s.dirs := by rw [hs']; rfl
    have hmem : s'.mem = s.mem := by rw [hs']; rfl
    have hfree : s'.free = update s.free t true := by rw [hs']; rfl
    have href : s'.ref = update s.ref t 0 := by rw [hs']; rfl
    have hcount : ∀ p, s'.count p = s.count p := by
      intro p
      have hslots : s'.slots = s.slots := by
        unfold Frames.slots
        rw [hdirs]
      unfold Frames.count
      rw [hslots]
      apply refs_congr
      rintro ⟨d', i', j⟩ hk
      obtain ⟨-, -, hj⟩ := (mem_slots s d' i' j).1 hk
      by_cases he : d' = d ∧ i' = i
      · obtain ⟨rfl, rfl⟩ := he
        rw [hz j hj]
        unfold Frames.maps
        rw [htab, if_pos ⟨rfl, rfl⟩]
        rfl
      · unfold Frames.maps Frames.load
        rw [htab, if_neg he, hmem]
    have hist : ∀ p, s'.IsTable p ↔ p ≠ t ∧ s.IsTable p := by
      intro p
      constructor
      · rintro ⟨d', hd', i', hi', ht'⟩
        rw [hdirs] at hd'
        rw [htab] at ht'
        split at ht'
        · cases ht'
        · next hne =>
          refine ⟨?_, d', hd', i', hi', ht'⟩
          rintro rfl
          exact hne (h.distinct hd' hi' hd hi ht' ht)
      · rintro ⟨hne, d', hd', i', hi', ht'⟩
        refine ⟨d', by rw [hdirs]; exact hd', i', hi', ?_⟩
        rw [htab, if_neg]
        · exact ht'
        · rintro ⟨rfl, rfl⟩
          exact hne (Option.some_inj.1 (ht'.symm.trans ht))
    rw [← hs']
    refine ⟨⟨?_, ?_, ?_, ?_⟩, hdirs, by rw [hs']; rfl, hmem, Freed.one hf hfree, ?_, ?_, ?_, ?_⟩
    · intro d1 i1 d2 i2 p hd1 hi1 hd2 hi2 h1 h2
      rw [hdirs] at hd1 hd2
      rw [htab] at h1 h2
      split at h1
      · cases h1
      · split at h2
        · cases h2
        · exact h.distinct hd1 hi1 hd2 hi2 h1 h2
    · intro p hp
      obtain ⟨hne, hp⟩ := (hist p).1 hp
      rw [href, hfree, hcount, update_of_ne hne, update_of_ne hne]
      exact h.table hp
    · intro p hp
      rw [href, hcount]
      by_cases he : p = t
      · subst he
        rw [update_self, hc]
        rfl
      · rw [update_of_ne he]
        exact h.user fun hpt => hp ((hist p).2 ⟨he, hpt⟩)
    · intro p hp
      rw [href]
      rw [hfree] at hp
      by_cases he : p = t
      · rw [he, update_self]
      · rw [update_of_ne he] at hp ⊢
        exact h.free hp
    · intro p
      rw [Option.toList_some, List.mem_singleton]
      constructor
      · rintro rfl
        exact ⟨i, hi, rfl, ht⟩
      · rintro ⟨i', -, rfl, ht'⟩
        exact Option.some_inj.1 (ht'.symm.trans ht)
    · rintro i' rfl -
      rw [hpg, if_pos ⟨rfl, rfl⟩]
    · intro d' i' hn
      rw [hpg, if_neg]
      rintro ⟨rfl, rfl⟩
      exact hn ⟨rfl, rfl, by rw [ht]; exact nofun⟩
    · intro p hp
      rw [Option.toList_some, List.mem_singleton] at hp
      rw [href, update_of_ne hp]

/-- The entries that the loop of `exit_range` visits. -/
def Visits (start stop : Word) (i : Nat) : Prop :=
  start.toNat ≤ i * 4194304 ∧ i * 4194304 < stop.toNat

theorem exitLoop_exited {d : Nat} {stop : Word} (htop : stop ≤ USERTOP) :
    ∀ (rounds : Nat) (start : Word) (s : Frames), Settled s → d ∈ s.dirs →
      start.toNat % 4194304 = 0 → start < stop → stop.toNat ≤ start.toNat + 4194304 * rounds →
      (∀ i j, Visits start stop i → j < 1024 → s.maps (d, i, j) = none) →
      Exited d (Visits start stop) s (exitLoop d stop rounds start s)
        (exitFrees d stop rounds start s) := by
  intro rounds
  have ht : stop.toNat ≤ 2147483648 := htop
  induction rounds with
  | zero =>
    intro start s _ _ _ hlt hr
    have hs : start.toNat < stop.toNat := hlt
    omega
  | succ rounds ih =>
    intro start s h hd hal hlt hr hz
    have hs : start.toNat < stop.toNat := hlt
    have hi := PDX_eq start
    have hadd : (start + PTSIZE).toNat = start.toNat + 4194304 := by
      rw [BitVec.toNat_add, BitVec.toNat_ofNat]
      omega
    have hfirst := exitEntry_exited h hd (PDX_lt start) fun j hj =>
      hz (PDX start) j ⟨by omega, by omega⟩ hj
    unfold exitLoop exitFrees
    simp only
    by_cases hgo : start + PTSIZE ≠ 0#32 ∧ start + PTSIZE < stop
    · have hd1 : d ∈ (exitEntry s d (PDX start)).dirs := by
        rw [hfirst.dirs]
        exact hd
      rw [if_pos hgo, if_pos hgo]
      apply (hfirst.trans (ih (start + PTSIZE) _ hfirst.settled hd1 (by omega) hgo.2 (by omega)
        ?_)).congr
      · intro i
        unfold Visits
        omega
      · intro i j hv hj
        apply hfirst.maps
        apply hz i j _ hj
        unfold Visits at hv ⊢
        omega
    · rw [if_neg hgo, if_neg hgo, List.append_nil]
      have hne : start + PTSIZE ≠ 0#32 := by
        intro h0
        rw [h0] at hadd
        simp at hadd
      have hns : stop.toNat ≤ (start + PTSIZE).toNat := BitVec.not_lt.1 fun h => hgo ⟨hne, h⟩
      apply hfirst.congr
      intro i
      unfold Visits
      omega

/-- An entry of the directory for an address of an area. -/
def CoversArea (vmas : List Vma) (i : Nat) : Prop :=
  ∃ vma ∈ vmas, ∃ la : Word, vma.vm_start ≤ la ∧ la < vma.vm_end ∧ PDX la = i

theorem toNat_table (a : Word) : (ROUNDDOWN_2N a PTSHIFT).toNat = a.toNat / 4194304 * 4194304 :=
  toNat_ROUNDDOWN_2N a 22

theorem visits_iff {vma : Vma} (hv : VmaOk vma) (i : Nat) :
    Visits (ROUNDDOWN_2N vma.vm_start PTSHIFT) vma.vm_end i ↔
      ∃ la : Word, vma.vm_start ≤ la ∧ la < vma.vm_end ∧ PDX la = i := by
  obtain ⟨-, hlt, htop⟩ := hv.user
  have hlt' : vma.vm_start.toNat < vma.vm_end.toNat := hlt
  have hend : vma.vm_end.toNat ≤ 2147483648 := htop
  unfold Visits
  rw [toNat_table]
  constructor
  · rintro ⟨hlo, hhi⟩
    obtain ⟨n, hn⟩ : ∃ n, n = max vma.vm_start.toNat (i * 4194304) := ⟨_, rfl⟩
    have hla : (BitVec.ofNat 32 n).toNat = n := by
      rw [BitVec.toNat_ofNat]
      omega
    refine ⟨BitVec.ofNat 32 n, ?_, ?_, ?_⟩
    · show vma.vm_start.toNat ≤ (BitVec.ofNat 32 n).toNat
      omega
    · show (BitVec.ofNat 32 n).toNat < vma.vm_end.toNat
      omega
    · rw [PDX_eq, hla]
      omega
  · rintro ⟨la, hlo, hhi, rfl⟩
    have h1 : vma.vm_start.toNat ≤ la.toNat := hlo
    have h2 : la.toNat < vma.vm_end.toNat := hhi
    rw [PDX_eq]
    omega

theorem exit_range_exited {d : Nat} {vma : Vma} {s : Frames} (h : Settled s) (hd : d ∈ s.dirs)
    (hv : VmaOk vma) (hz : ∀ i j, CoversArea [vma] i → j < 1024 → s.maps (d, i, j) = none) :
    ∃ s', exit_range s d vma.vm_start vma.vm_end = some s' ∧
      Exited d (CoversArea [vma]) s s'
        (exitFrees d vma.vm_end NPAGES (ROUNDDOWN_2N vma.vm_start PTSHIFT) s) := by
  obtain ⟨-, hlt, htop⟩ := hv.user
  have hlt' : vma.vm_start.toNat < vma.vm_end.toNat := hlt
  have hround := toNat_table vma.vm_start
  have hcov : ∀ i, CoversArea [vma] i ↔
      Visits (ROUNDDOWN_2N vma.vm_start PTSHIFT) vma.vm_end i := by
    intro i
    unfold CoversArea
    rw [visits_iff hv]
    constructor
    · rintro ⟨w, hw, hla⟩
      obtain rfl := List.mem_singleton.1 hw
      exact hla
    · exact fun hla => ⟨vma, List.mem_singleton_self vma, hla⟩
  have hstop : vma.vm_end.toNat ≤ 2147483648 := htop
  have hrounds : vma.vm_end.toNat ≤ (ROUNDDOWN_2N vma.vm_start PTSHIFT).toNat +
      4194304 * NPAGES :=
    le_trans hstop (le_trans (by decide) (Nat.le_add_left (4194304 * NPAGES) _))
  unfold exit_range
  rw [if_pos ⟨hv.start, hv.stop, hv.user⟩]
  refine ⟨_, rfl, (exitLoop_exited htop NPAGES (ROUNDDOWN_2N vma.vm_start PTSHIFT) s h hd ?_ ?_
    hrounds ?_).congr hcov⟩
  · rw [hround]
    exact Nat.mul_mod_left _ _
  · show (ROUNDDOWN_2N vma.vm_start PTSHIFT).toNat < vma.vm_end.toNat
    omega
  · intro i j hvis hj
    exact hz i j ((hcov i).2 hvis) hj

theorem exit_pass {d : Nat} : ∀ (vmas : List Vma) (s : Frames), Settled s → d ∈ s.dirs →
    (∀ vma ∈ vmas, VmaOk vma) →
    (∀ i j, CoversArea vmas i → j < 1024 → s.maps (d, i, j) = none) →
    ∃ s', vmas.foldlM (fun s vma => exit_range s d vma.vm_start vma.vm_end) s = some s' ∧
      Exited d (CoversArea vmas) s s'
        (passFrees (fun s vma => exit_range s d vma.vm_start vma.vm_end)
          (fun s vma => exitFrees d vma.vm_end NPAGES (ROUNDDOWN_2N vma.vm_start PTSHIFT) s)
          vmas s) := by
  intro vmas
  induction vmas with
  | nil =>
    intro s h _ _ _
    refine ⟨s, rfl, Exited.refl h ?_⟩
    rintro i ⟨vma, hv, -⟩
    cases hv
  | cons vma vmas ih =>
    intro s h hd hok hz
    have hcov : ∀ i, CoversArea (vma :: vmas) i ↔ CoversArea [vma] i ∨ CoversArea vmas i := by
      intro i
      unfold CoversArea
      rw [List.exists_mem_cons_iff, List.exists_mem_cons_iff]
      simp only [List.not_mem_nil, false_and, exists_false, or_false]
    obtain ⟨s1, he, hx⟩ := exit_range_exited h hd (hok vma List.mem_cons_self)
      fun i j hc hj => hz i j ((hcov i).2 (Or.inl hc)) hj
    have hd1 : d ∈ s1.dirs := by
      rw [hx.dirs]
      exact hd
    obtain ⟨s2, he', hx'⟩ := ih s1 hx.settled hd1 (fun w hw => hok w (List.mem_cons_of_mem vma hw))
      fun i j hc hj => hx.maps (hz i j ((hcov i).2 (Or.inr hc)) hj)
    refine ⟨s2, ?_, ?_⟩
    · rw [List.foldlM_cons, he]
      exact he'
    · unfold passFrees
      rw [he]
      exact (hx.trans hx').congr hcov

/-! ## Both passes -/

/-- The entries of a directory for user addresses. -/
def Frames.userSlots (s : Frames) (d : Nat) : Finset Slot :=
  s.slots.filter fun k => k.1 = d ∧ PDX USERBASE ≤ k.2.1 ∧ k.2.1 < PDX USERTOP

/-- How many user addresses of the directory map the page. -/
def Frames.mappings (s : Frames) (d : Nat) (p : Page) : Nat := refs (s.userSlots d) s.maps p

/-- An address of an area. -/
def InVmas (vmas : List Vma) (la : Word) : Prop :=
  ∃ vma ∈ vmas, vma.vm_start ≤ la ∧ la < vma.vm_end

/-- The pages of the list went back once each: the frames that only this directory mapped and
the page tables of the areas. The areas have no entry left, the frames that are mapped elsewhere
have lost the mappings of this directory, and nothing else changed. -/
structure ExitedOnce (s s' : Frames) (mm : Mm) (freed : List Page) : Prop where
  settled : Settled s'
  nodup : freed.Nodup
  taken : ∀ p ∈ freed, s.free p = false
  free : ∀ p, s'.free p = true ↔ s.free p = true ∨ p ∈ freed
  frees : ∀ p, p ∈ freed ↔
    (0 < s.mappings mm.pgdir p ∧ s.mappings mm.pgdir p = s.count p) ∨
      ∃ la, InVmas mm.mmap_list la ∧ s.table mm.pgdir (PDX la) = some p
  pde : ∀ la, InVmas mm.mmap_list la → s'.table mm.pgdir (PDX la) = none
  pte : ∀ la, InVmas mm.mmap_list la → ∀ t, s.table mm.pgdir (PDX la) = some t →
    ptep_present (s'.mem t (PTX la)) = false
  ref : ∀ p, ¬ s.IsTable p → s'.ref p = s.ref p - s.mappings mm.pgdir p
  tableRef : ∀ p, s.IsTable p → p ∉ freed → s'.ref p = s.ref p
  dirs : s'.dirs = s.dirs
  tick : s'.tick = s.tick
  pgdirs : ∀ d i, ¬ (d = mm.pgdir ∧ s.table d i ≠ none ∧
      ∃ la, InVmas mm.mmap_list la ∧ PDX la = i) → s'.pgdirs d i = s.pgdirs d i
  mem : ∀ p j, ¬ (∃ la, InVmas mm.mmap_list la ∧ PTX la = j ∧
      s.table mm.pgdir (PDX la) = some p ∧ ptep_present (s.mem p j) = true) →
    s'.mem p j = s.mem p j

theorem maps_addr (s : Frames) (d : Nat) (la : Word) :
    s.maps (d, PDX la, PTX la) = entryPage (s.pte d la) := by
  unfold Frames.maps Frames.pte
  rcases s.table d (PDX la) with _ | t
  · exact entryPage_zero.symm
  · rfl

/-- The first address of an entry. -/
theorem exists_addr {i j : Nat} (hi : i < 1024) (hj : j < 1024) :
    ∃ la : Word, la.toNat = slotAddr i j ∧ PDX la = i ∧ PTX la = j := by
  have hla : (BitVec.ofNat 32 (slotAddr i j)).toNat = slotAddr i j := by
    rw [BitVec.toNat_ofNat]
    unfold slotAddr
    omega
  refine ⟨BitVec.ofNat 32 (slotAddr i j), hla, ?_, ?_⟩
  · rw [PDX_eq, hla]
    unfold slotAddr
    omega
  · rw [PTX_eq, hla]
    unfold slotAddr
    omega

theorem inAreasOf_iff {vmas : List Vma} (hok : ∀ vma ∈ vmas, VmaOk vma) (la : Word) :
    InAreasOf vmas (PDX la) (PTX la) ↔ InVmas vmas la := by
  have hs : slotAddr (PDX la) (PTX la) = la.toNat / 4096 * 4096 := by
    unfold slotAddr
    rw [PDX_eq, PTX_eq]
    omega
  unfold InAreasOf InVmas Between
  constructor
  · rintro ⟨vma, hv, -, hlo, hhi⟩
    have h1 := toNat_of_pageAligned (hok vma hv).stop
    refine ⟨vma, hv, ?_, ?_⟩
    · show vma.vm_start.toNat ≤ la.toNat
      omega
    · show la.toNat < vma.vm_end.toNat
      omega
  · rintro ⟨vma, hv, hlo, hhi⟩
    have h1 := toNat_of_pageAligned (hok vma hv).start
    have h2 : vma.vm_start.toNat ≤ la.toNat := hlo
    have h3 : la.toNat < vma.vm_end.toNat := hhi
    exact ⟨vma, hv, PTX_lt la, by omega, by omega⟩

theorem coversArea_iff (vmas : List Vma) (i : Nat) :
    CoversArea vmas i ↔ ∃ la, InVmas vmas la ∧ PDX la = i := by
  unfold CoversArea InVmas
  constructor
  · rintro ⟨vma, hv, la, hlo, hhi, hi⟩
    exact ⟨la, ⟨vma, hv, hlo, hhi⟩, hi⟩
  · rintro ⟨la, ⟨vma, hv, hlo, hhi⟩, hi⟩
    exact ⟨vma, hv, la, hlo, hhi, hi⟩

section

variable {A : Allocator} {s s1 : Frames} {d : Nat} {vmas : List Vma} {l : List Page}

/-- Areas lie in the user segment. -/
theorem InVmas.user (hok : ∀ vma ∈ vmas, VmaOk vma) {la : Word} (h : InVmas vmas la) :
    USERBASE ≤ la ∧ la < USERTOP := by
  obtain ⟨vma, hv, hlo, hhi⟩ := h
  obtain ⟨hbase, -, htop⟩ := (hok vma hv).user
  exact ⟨Nat.le_trans hbase hlo, Nat.lt_of_lt_of_le hhi htop⟩

theorem mem_userSlots (s : Frames) (d d' i j : Nat) :
    (d', i, j) ∈ s.userSlots d ↔ (d', i, j) ∈ s.slots ∧ d' = d ∧ 64 ≤ i ∧ i < 512 :=
  Finset.mem_filter

/-- Every page table that a user address has is for user addresses only. -/
theorem PDX_user {la : Word} (hlo : USERBASE ≤ la) (hhi : la < USERTOP) :
    64 ≤ PDX la ∧ PDX la < 512 := by
  have h1 : 268435456 ≤ la.toNat := hlo
  have h2 : la.toNat < 2147483648 := hhi
  rw [PDX_eq]
  omega

theorem user_of_slotAddr {la : Word} {i j : Nat} (hla : la.toNat = slotAddr i j) (hj : j < 1024)
    (hlo : 64 ≤ i) (hhi : i < 512) : USERBASE ≤ la ∧ la < USERTOP := by
  unfold slotAddr at hla
  constructor
  · show 268435456 ≤ la.toNat
    omega
  · show la.toNat < 2147483648
    omega

/-- The entries of the areas map nothing after the first pass, and the others what they did. -/
theorem Unmapped.maps (h : Settled s) (hd : d ∈ s.dirs) (hu : Unmapped d (InAreasOf vmas) s s1 l)
    {d' i j : Nat} (hk : (d', i, j) ∈ s.slots) :
    (d' = d ∧ InAreasOf vmas i j → s1.maps (d', i, j) = none) ∧
      (¬ (d' = d ∧ InAreasOf vmas i j) → s1.maps (d', i, j) = s.maps (d', i, j)) := by
  obtain ⟨hd', hi, -⟩ := (mem_slots s d' i j).1 hk
  have htab := hu.table
  unfold Frames.maps
  rw [htab]
  rcases ht : s.table d' i with _ | t
  · exact ⟨fun _ => rfl, fun _ => rfl⟩
  · rw [Option.bind_some, Option.bind_some]
    show (_ → entryPage (s1.mem t j) = none) ∧ (_ → entryPage (s1.mem t j) = entryPage (s.mem t j))
    constructor
    · rintro ⟨rfl, hin⟩
      by_cases hpres : ptep_present (s.mem t j) = true
      · rw [hu.cleared t j ⟨i, hi, ht, hin, hpres⟩, entryPage_zero]
      · rw [hu.kept t j]
        · exact if_neg hpres
        · rintro ⟨-, -, -, -, hpres'⟩
          exact hpres hpres'
    · intro hn
      rw [hu.kept t j]
      rintro ⟨i', hi', ht', hin, -⟩
      obtain ⟨rfl, rfl⟩ := h.distinct hd' hi hd hi' ht ht'
      exact hn ⟨rfl, hin⟩

/-- With all user pages in the areas, a page loses just the mappings of the directory. -/
theorem Unmapped.count (h : Settled s) (hd : d ∈ s.dirs) (hok : ∀ vma ∈ vmas, VmaOk vma)
    (hin : ∀ la, USERBASE ≤ la → la < USERTOP → ptep_present (s.pte d la) = true → InVmas vmas la)
    (hu : Unmapped d (InAreasOf vmas) s s1 l) (p : Page) :
    s1.count p + s.mappings d p = s.count p := by
  classical
  have hclear := @refs_clear _ _ _ s.slots s.maps s1.maps
    (fun k => k.1 = d ∧ InAreasOf vmas k.2.1 k.2.2) _
    (fun k hk hP => (hu.maps h hd hk).1 hP) (fun k hk hP => (hu.maps h hd hk).2 hP) p
  have hslots : s1.slots = s.slots := by
    unfold Frames.slots
    rw [hu.dirs]
  have hsub : (s.slots.filter fun k => k.1 = d ∧ InAreasOf vmas k.2.1 k.2.2) ⊆ s.userSlots d := by
    rintro ⟨d', i, j⟩ hk
    obtain ⟨hk, hdd, hi⟩ := Finset.mem_filter.1 hk
    obtain ⟨-, hi1, hj⟩ := (mem_slots s d' i j).1 hk
    obtain ⟨la, -, rfl, rfl⟩ := exists_addr hi1 hj
    obtain ⟨hlo, hhi⟩ := ((inAreasOf_iff hok la).1 hi).user hok
    exact (mem_userSlots s _ _ _ _).2 ⟨hk, hdd, PDX_user hlo hhi⟩
  have hmap : s.mappings d p =
      refs (s.slots.filter fun k => k.1 = d ∧ InAreasOf vmas k.2.1 k.2.2) s.maps p := by
    apply refs_mono hsub
    rintro ⟨d', i, j⟩ hk hnk
    obtain ⟨hk, hdd, hlo, hhi⟩ := (mem_userSlots s _ _ _ _).1 hk
    obtain ⟨-, hi1, hj⟩ := (mem_slots s d' i j).1 hk
    obtain ⟨la, hla, rfl, rfl⟩ := exists_addr hi1 hj
    obtain ⟨hu1, hu2⟩ := user_of_slotAddr hla hj hlo hhi
    rw [maps_addr, hdd]
    apply if_neg
    intro hpres
    exact hnk (Finset.mem_filter.2
      ⟨hk, hdd, (inAreasOf_iff hok la).2 (hin la hu1 hu2 hpres)⟩)
  unfold Frames.count
  rw [hslots, hmap]
  exact hclear

/-- No entry is left in the page tables that the second pass gives back. -/
theorem Unmapped.covered (h : Settled s) (hd : d ∈ s.dirs) (hok : ∀ vma ∈ vmas, VmaOk vma)
    (hin : ∀ la, USERBASE ≤ la → la < USERTOP → ptep_present (s.pte d la) = true → InVmas vmas la)
    (hu : Unmapped d (InAreasOf vmas) s s1 l) {i j : Nat} (hc : CoversArea vmas i)
    (hj : j < 1024) : s1.maps (d, i, j) = none := by
  obtain ⟨la, hla, rfl⟩ := (coversArea_iff vmas i).1 hc
  obtain ⟨hlo, hhi⟩ := hla.user hok
  obtain ⟨h1, h2⟩ := PDX_user hlo hhi
  obtain ⟨la', hla', hi', rfl⟩ := exists_addr (PDX_lt la) hj
  have hk : (d, PDX la, PTX la') ∈ s.slots := (mem_slots s _ _ _).2 ⟨hd, PDX_lt la, hj⟩
  obtain ⟨hnone, hsame⟩ := hu.maps h hd hk
  by_cases hA : InAreasOf vmas (PDX la) (PTX la')
  · exact hnone ⟨rfl, hA⟩
  · rw [hsame fun hc => hA hc.2, ← hi', maps_addr]
    apply if_neg
    intro hpres
    obtain ⟨hu1, hu2⟩ := user_of_slotAddr hla' hj h1 h2
    rw [← hi'] at hA
    exact hA ((inAreasOf_iff hok la').2 (hin la' hu1 hu2 hpres))

end

/-- The pages of all areas go before the first page table, so no page table is left with an
entry, and the second area of a page table finds it gone. -/
theorem exit_mmap_frees (A : Allocator) {s : Frames} {mm : Mm} (h : Settled s)
    (hd : mm.pgdir ∈ s.dirs) (hcount : mm.mm_count = 0)
    (hok : ∀ vma ∈ mm.mmap_list, VmaOk vma)
    (hin : ∀ la, USERBASE ≤ la → la < USERTOP → ptep_present (s.pte mm.pgdir la) = true →
      InVmas mm.mmap_list la) :
    ∃ s', exit_mmap A s mm = some s' ∧ ExitedOnce s s' mm (exitMmapFrees A s mm) := by
  obtain ⟨s1, he1, hu⟩ := unmap_pass (A := A) mm.mmap_list s h hd hok
  have hd1 : mm.pgdir ∈ s1.dirs := by
    rw [hu.dirs]
    exact hd
  have htab := hu.table
  obtain ⟨s2, he2, hx⟩ := exit_pass mm.mmap_list s1 hu.settled hd1 hok
    fun i j hc hj => hu.covered h hd hok hin hc hj
  have hlost := hu.count h hd hok hin
  obtain ⟨l1, hl1⟩ : ∃ l1, l1 = passFrees
    (fun s vma => unmap_range A s mm.pgdir vma.vm_start vma.vm_end)
    (fun s vma => unmapFrees A mm.pgdir vma.vm_end NPAGES vma.vm_start s) mm.mmap_list s :=
    ⟨_, rfl⟩
  obtain ⟨l2, hl2⟩ : ∃ l2, l2 = passFrees
    (fun s vma => exit_range s mm.pgdir vma.vm_start vma.vm_end)
    (fun s vma => exitFrees mm.pgdir vma.vm_end NPAGES (ROUNDDOWN_2N vma.vm_start PTSHIFT) s)
    mm.mmap_list s1 := ⟨_, rfl⟩
  have hfrees : exitMmapFrees A s mm = l1 ++ l2 := by
    rw [hl1, hl2]
    unfold exitMmapFrees
    simp only
    rw [he1]
    rfl
  rw [← hl1] at hu
  rw [← hl2] at hx
  have hall := hu.freed.trans hx.freed
  have hist : ∀ p, s1.IsTable p ↔ s.IsTable p := by
    intro p
    unfold Frames.IsTable
    rw [hu.dirs, htab]
  -- the second pass gives page tables back
  have htable2 : ∀ p, p ∈ l2 ↔
      ∃ la, InVmas mm.mmap_list la ∧ s.table mm.pgdir (PDX la) = some p := by
    intro p
    rw [hx.frees, htab]
    constructor
    · rintro ⟨i, -, hc, ht⟩
      obtain ⟨la, hla, rfl⟩ := (coversArea_iff _ _).1 hc
      exact ⟨la, hla, ht⟩
    · rintro ⟨la, hla, ht⟩
      exact ⟨PDX la, PDX_lt la, (coversArea_iff _ _).2 ⟨la, hla, rfl⟩, ht⟩
  have hist2 : ∀ p ∈ l2, s.IsTable p := by
    intro p hp
    obtain ⟨la, -, ht⟩ := (htable2 p).1 hp
    exact ⟨mm.pgdir, hd, PDX la, PDX_lt la, ht⟩
  refine ⟨s2, ?_, ?_⟩
  · unfold exit_mmap
    rw [if_pos hcount, he1]
    exact he2
  · rw [hfrees]
    refine ⟨hx.settled, hall.nodup, fun p hp => ((hall.mem p).1 hp).1, ?_, ?_, ?_, ?_, ?_, ?_,
      hx.dirs.trans hu.dirs, hx.tick.trans hu.tick, ?_, ?_⟩
    · intro p
      rw [hall.mem]
      cases hf : s.free p with
      | true => exact ⟨fun _ => Or.inl rfl, fun _ => hall.keep p hf⟩
      | false => exact ⟨fun hp => Or.inr ⟨rfl, hp⟩, fun hp => (hp.resolve_left nofun).2⟩
    · intro p
      rw [List.mem_append, htable2, hu.freed.mem]
      have hp := hlost p
      have hfree : s.free p = true → s.count p = 0 := h.count_free
      cases hf : s.free p with
      | true =>
        have hz := hfree hf
        have hn : ¬ (0 < s.mappings mm.pgdir p ∧ s.mappings mm.pgdir p = s.count p) := by omega
        simp only [Bool.true_eq_false, false_and, hn]
      | false =>
        rw [hu.freesUnmapped.freed p hf]
        have hiff : (0 < s.count p ∧ s1.count p = 0) ↔
            (0 < s.mappings mm.pgdir p ∧ s.mappings mm.pgdir p = s.count p) := by omega
        rw [hiff]
        simp only [true_and]
    · intro la hla
      rcases hx.table mm.pgdir (PDX la) with ⟨hn, -⟩ | ⟨he, hc⟩
      · exact hn
      · rw [he]
        by_contra hne
        exact hc ⟨rfl, (coversArea_iff _ _).2 ⟨la, hla, rfl⟩, hne⟩
    · intro la hla t ht
      rw [hx.mem]
      have hA := (inAreasOf_iff hok la).2 hla
      by_cases hpres : ptep_present (s.mem t (PTX la)) = true
      · rw [hu.cleared t _ ⟨PDX la, PDX_lt la, ht, hA, hpres⟩]
        rfl
      · rw [hu.kept t _ fun hp => hpres hp.choose_spec.2.2.2]
        exact Bool.eq_false_iff.2 hpres
    · intro p hp
      have hp1 := hlost p
      have h1 := hu.settled.user fun ht => hp ((hist p).1 ht)
      rw [hx.ref p fun hm => hp (hist2 p hm), h1, h.user hp]
      omega
    · intro p hp hn
      rw [List.mem_append, not_or] at hn
      rw [hx.ref p hn.2, (h.table hp).1, (hu.settled.table ((hist p).2 hp)).1]
    · intro d i hn
      rw [hx.kept d i, hu.pgdirs]
      rintro ⟨rfl, hc, ht⟩
      rw [htab] at ht
      exact hn ⟨rfl, ht, (coversArea_iff _ _).1 hc⟩
    · intro p j hn
      rw [hx.mem]
      apply hu.kept
      rintro ⟨i, hi, ht, hA, hpres⟩
      obtain ⟨vma, hv, hj, hr⟩ := id hA
      obtain ⟨la, -, rfl, rfl⟩ := exists_addr hi hj
      exact hn ⟨la, (inAreasOf_iff hok la).1 hA, rfl, ht, hpres⟩

/-- `exit_mmap` gives everything of a memory back once. -/
theorem exit_mmap_once (A : Allocator) (s : Frames) (mm : Mm) (h : Settled s)
    (hd : mm.pgdir ∈ s.dirs) (hcount : mm.mm_count = 0)
    (hok : ∀ vma ∈ mm.mmap_list, VmaOk vma)
    (hin : ∀ la, USERBASE ≤ la → la < USERTOP → ptep_present (s.pte mm.pgdir la) = true →
      InVmas mm.mmap_list la) :
    ∃ s', exit_mmap A s mm = some s' ∧ ExitedOnce s s' mm (exitMmapFrees A s mm) :=
  exit_mmap_frees A h hd hcount hok hin

/-- A directory with one page table and one page in it, at the start of the user segment. -/
def firstPage : Frames :=
  let s := setup_pgdir (Frames.boot (fun _ _ => 0#32) (fun _ _ => 0#32) fun _ => true) 0
  let s := (newTable (s.taken 0x80200#20) 0 USERBASE 0x80200#20).taken 0x80100#20
  (page_ref_inc s 0x80100#20).store ⟨0x80200#20, PTX USERBASE⟩
    (page2pa 0x80100#20 ||| PTE_P ||| PTE_U)

theorem taken_self (s : Frames) (page : Page) : (s.taken page).free page = false := by
  show update s.free page false page = false
  exact update_self _ _ _

theorem firstPage_ok : Settled firstPage ∧
    ∀ la, ptep_present (firstPage.pte 0 la) = true → SamePage la USERBASE := by
  obtain ⟨s0, hs0⟩ : ∃ s0, s0 =
    setup_pgdir (Frames.boot (fun _ _ => 0#32) (fun _ _ => 0#32) fun _ => true) 0 := ⟨_, rfl⟩
  have h0 : Settled s0 := by
    rw [hs0]
    exact (setup_pgdir_spec (boot_settled _ _ _) (Finset.notMem_empty 0)).1
  have hd : 0 ∈ s0.dirs := by
    rw [hs0]
    exact Finset.mem_insert_self 0 ∅
  have hz : ∀ i, s0.table 0 i = none := by
    intro i
    rw [hs0]
    exact entryPage_zero
  have hf : s0.free 0x80200#20 = true := by rw [hs0]; rfl
  have h1 := h0.newTable hd (hz (PDX USERBASE)) hf
  obtain ⟨s1, hs1⟩ : ∃ s1, s1 =
    (newTable (s0.taken 0x80200#20) 0 USERBASE 0x80200#20).taken 0x80100#20 := ⟨_, rfl⟩
  have h2 : Settled s1 := by
    rw [hs1]
    exact h1.taken 0x80100#20
  have hnt : ¬ s1.IsTable 0x80100#20 := by
    rw [hs1]
    intro ht
    rcases (isTable_newTable hd (hz _) _).1 ht with he | ⟨d', hd', i, -, ht'⟩
    · exact absurd he (by decide)
    · have hd0 : d' = 0 := by
        rw [hs0] at hd'
        exact Finset.mem_singleton.1 hd'
      rw [hd0, hz] at ht'
      cases ht'
  have hnf : s1.free 0x80100#20 = false := by
    rw [hs1]
    exact taken_self _ _
  have hptr : ∀ n, IsPte (page_ref_inc s1 n) 0 USERBASE ⟨0x80200#20, PTX USERBASE⟩ := by
    intro n
    refine ⟨?_, ?_, rfl⟩
    · rw [hs1]
      exact hd
    · rw [hs1]
      exact (@table_newTable s0 0 USERBASE 0x80200#20 0 _).trans
        (if_pos ⟨rfl, rfl⟩)
  -- the new page table is empty
  have hpte : ∀ la, s1.pte 0 la = 0#32 := by
    intro la
    have ht : s1.table 0 (PDX la) =
        if 0 = 0 ∧ PDX la = PDX USERBASE then some 0x80200#20 else none := by
      rw [hs1, ← hz (PDX la)]
      exact table_newTable (s := s0) 0 (PDX la)
    unfold Frames.pte
    rw [ht]
    split
    · next t htt =>
      split at htt
      · cases htt
      · rfl
    · next t htt =>
      split at htt
      · obtain rfl := Option.some_inj.1 htt
        rw [hs1]
        rfl
      · cases htt
  have hent : entryPage (page2pa 0x80100#20 ||| PTE_P ||| PTE_U) = some 0x80100#20 :=
    entryPage_insert 0x80100#20 (by decide)
  have hload : (page_ref_inc s1 0x80100#20).load ⟨0x80200#20, PTX USERBASE⟩ = 0#32 := by
    rw [hs1]
    rfl
  have hone : firstPage = (page_ref_inc s1 0x80100#20).store ⟨0x80200#20, PTX USERBASE⟩
      (page2pa 0x80100#20 ||| PTE_P ||| PTE_U) := by
    rw [hs1, hs0]
    rfl
  rw [hone]
  constructor
  · refine ((h2.inc hnt hnf).store (hptr _) ?_).congr ?_
    · intro q hq
      rw [hent] at hq
      obtain rfl := Option.some_inj.1 hq
      exact hnt
    · intro p
      rw [hload, hent, entryPage_zero, holds_none]
      omega
  · intro la hp
    rw [pte_store (h2.inc hnt hnf).distinct (hptr _)] at hp
    split at hp
    · next hl => exact hl
    · have hz' : (page_ref_inc s1 0x80100#20).pte 0 la = 0#32 := hpte la
      rw [hz'] at hp
      exact absurd hp (by decide)

/-- An area of two pages, one of them without a page. -/
abbrev firstArea : Mm := oneArea ⟨USERBASE, 0x10002000#32, VM_WRITE⟩

theorem exit_mmap_once_firstPage :
    exitMmapFrees eightPages firstPage firstArea = [0x80100#20, 0x80200#20] ∧
    ∃ s', exit_mmap eightPages firstPage firstArea = some s' ∧
      s'.free 0x80100#20 = true ∧ s'.free 0x80200#20 = true := by
  have hl : exitMmapFrees eightPages firstPage firstArea = [0x80100#20, 0x80200#20] := by
    decide +kernel
  have hok : ∀ vma ∈ firstArea.mmap_list, VmaOk vma := by
    intro vma hv
    obtain rfl := List.mem_singleton.1 hv
    exact ⟨by decide, by decide, by decide⟩
  have hin : ∀ la, USERBASE ≤ la → la < USERTOP →
      ptep_present (firstPage.pte firstArea.pgdir la) = true → InVmas firstArea.mmap_list la := by
    intro la hlo _ hp
    have hs := (samePage_iff la USERBASE).1 (firstPage_ok.2 la hp)
    have hlo' : 268435456 ≤ la.toNat := hlo
    have hb : USERBASE.toNat = 268435456 := rfl
    refine ⟨_, List.mem_singleton_self _, hlo, ?_⟩
    show la.toNat < 268443648
    omega
  have hd : firstArea.pgdir ∈ firstPage.dirs := Finset.mem_insert_self 0 ∅
  obtain ⟨s', he, hx⟩ := exit_mmap_once eightPages firstPage firstArea firstPage_ok.1 hd rfl hok hin
  rw [hl] at hx
  exact ⟨hl, s', he, (hx.free _).2 (Or.inr (by decide)), (hx.free _).2 (Or.inr (by decide))⟩

end nehcpu.kernel.frames
