-- `load_icode` from its first read to the last store of the argument block: which segments are in
-- the memory of the new program, and what is left where it fails.
import Nehcpu.Kernel.LoadSegments

namespace nehcpu.kernel.frames

open cpu refcount Function lanes

/-! ## The headers of the file -/

def File.elfhdr (F : File) : Elfhdr := _load_elfhdr ((List.range 52).map F.bytes)

def File.proghdr (F : File) (i : Nat) : Proghdr :=
  let phoff := F.elfhdr.e_phoff + PROGHDR_SIZE * BitVec.ofNat 32 i
  frames.proghdr ((List.range 32).map fun k => F.bytes (phoff.toNat + k))

/-- The headers that are loaded. -/
def Loadable (F : File) (i : Nat) : Prop :=
  i < F.elfhdr.e_phnum.toNat ∧ (F.proghdr i).p_type = ELF_PT_LOAD

section

variable {A : Allocator} {F : File} {s0 : Frames} {h0 d : Nat}

theorem Held.read {s : Loader} (h : Held s0 h0 d s) (n : Nat) :
    Held s0 h0 d { s with reads := n } := ⟨h.building, h.heap⟩

theorem InMemory.read {ph : Proghdr} {s : Loader} (h : InMemory F ph d s) (n : Nat) :
    InMemory F ph d { s with reads := n } := ⟨h.bytes, h.pages, h.inside⟩

theorem Keeps.trans {s s' s'' : Loader} (h : Keeps d s s') (h' : Keeps d s' s'') :
    Keeps d s s'' := by
  refine ⟨?_, ?_, ?_⟩
  · intro la hin
    exact h'.areas (h.areas hin)
  · intro la hin
    rw [h'.pte (h.areas hin), h.pte hin]
  · intro la hin
    rw [h'.byte (h.areas hin), h.byte hin]

/-- The loop over the headers: those that are through stay in the memory. -/
theorem loadHeaders_spec (hw : ∀ i, Loadable F i → ¬ Wraps (F.proghdr i)) :
    ∀ (left : Nat) (prev : Option Page) (s : Loader), left ≤ F.elfhdr.e_phnum.toNat →
      Held s0 h0 d s → Clean d s →
      (∀ i, i < F.elfhdr.e_phnum.toNat - left → Loadable F i → InMemory F (F.proghdr i) d s) →
      Jumps s0 h0 d (loadHeaders A F F.elfhdr left prev s) ∨
      ∃ s', loadHeaders A F F.elfhdr left prev s = some (.next s') ∧ Held s0 h0 d s' ∧
        Clean d s' ∧ ∀ i, Loadable F i → InMemory F (F.proghdr i) d s' := by
  intro left
  induction left with
  | zero =>
    intro prev s _ h hc hs
    right
    exact ⟨s, rfl, h, hc, fun i hi => hs i hi.1 hi⟩
  | succ left ih =>
    intro prev s hle h hc hs
    obtain ⟨i, hi⟩ : ∃ i, i = F.elfhdr.e_phnum.toNat - (left + 1) := ⟨_, rfl⟩
    have hnext : F.elfhdr.e_phnum.toNat - left = i + 1 := by omega
    unfold loadHeaders
    simp only
    rw [← hi]
    rw [← hi] at hs
    obtain ⟨phoff, hphoff⟩ : ∃ phoff, phoff = F.elfhdr.e_phoff + PROGHDR_SIZE * BitVec.ofNat 32 i :=
      ⟨_, rfl⟩
    rw [← hphoff]
    rcases hread : load_icode_read F s.reads PROGHDR_SIZE phoff with ⟨ret, bs⟩
    simp only
    have h' := h.read (s.reads + 1)
    by_cases hret : ret = 0#32
    · rw [if_neg (not_not.2 hret)]
      have hok := load_icode_read_ok F s.reads PROGHDR_SIZE phoff (by decide) (by rw [hread]; exact hret)
      rw [hread] at hok
      obtain ⟨-, hbytes⟩ := hok
      have hph : proghdr bs = F.proghdr i := by
        have hbs : bs = (List.range 32).map fun k => F.bytes (phoff.toNat + k) := hbytes
        rw [hbs, hphoff]
        rfl
      rw [hph]
      by_cases htype : (F.proghdr i).p_type = ELF_PT_LOAD
      · rw [if_neg (not_not.2 htype)]
        have hload : Loadable F i := ⟨by omega, htype⟩
        rcases load_segment_spec (A := A) (hw i hload) prev h' hc with
          ⟨ret', s', he, hj⟩ | ⟨page, s', he, hheld, hclean, hin, hkeep⟩
        · left
          rw [he]
          exact ⟨ret', s', rfl, hj⟩
        · rw [he]
          simp only
          refine ih page s' (by omega) hheld hclean ?_
          intro j hj hjl
          rw [hnext] at hj
          rcases Nat.lt_succ_iff_lt_or_eq.1 hj with hlt | rfl
          · exact ((hs j hlt hjl).read _).keeps hkeep
          · exact hin
      · rw [if_pos htype]
        refine ih prev _ (by omega) h' hc ?_
        intro j hj hjl
        rw [hnext] at hj
        rcases Nat.lt_succ_iff_lt_or_eq.1 hj with hlt | rfl
        · exact (hs j hlt hjl).read _
        · exact absurd hjl.2 htype
    · left
      rw [if_pos hret]
      exact ⟨ret, _, rfl, hret, h'⟩

def stackArea : Vma :=
  mappedArea (USTACKTOP - USTACKSIZE) USTACKSIZE (VM_READ ||| VM_WRITE ||| VM_STACK)

/-- Memory is loaded: all segments are there, and the area of the stack. -/
structure AreasLoaded (F : File) (s0 : Frames) (h0 d : Nat) (s : Loader) : Prop where
  held : Held s0 h0 d s
  clean : Clean d s
  segments : ∀ i, Loadable F i → InMemory F (F.proghdr i) d s
  stack : stackArea ∈ s.mm.mmap_list

theorem loadAreas_spec (hw : ∀ i, Loadable F i → ¬ Wraps (F.proghdr i)) {s : Loader}
    (h : Held s0 h0 d s) (hc : Clean d s) :
    Jumps s0 h0 d (loadAreas A F F.elfhdr s) ∨
    ∃ s', loadAreas A F F.elfhdr s = some (.next s') ∧ AreasLoaded F s0 h0 d s' := by
  unfold loadAreas
  rcases loadHeaders_spec (A := A) hw F.elfhdr.e_phnum.toNat none s le_rfl h hc (by
      intro i hi
      omega) with
    ⟨ret, s', he, hj⟩ | ⟨s1, he, h1, hc1, hs1⟩
  · left
    rw [he]
    exact ⟨ret, s', rfl, hj⟩
  · rw [he]
    simp only
    rcases map_area_spec (A := A) h1 (USTACKTOP - USTACKSIZE) USTACKSIZE
        (VM_READ ||| VM_WRITE ||| VM_STACK) with
      hj | ⟨s2, he2, h2, -, -, hperm, hpages⟩
    · exact Or.inl hj
    · right
      have hin : ∀ {la}, InVmas s1.mm.mmap_list la → InVmas s2.mm.mmap_list la := by
        rintro la ⟨w, hwm, hr⟩
        exact ⟨w, hperm.mem_iff.2 (List.mem_cons_of_mem _ hwm), hr⟩
      have hpte : ∀ la, s2.pages.pte d la = s1.pages.pte d la := by
        intro la
        rw [hpages]
        rfl
      have hbyte : ∀ la, s2.pages.userByte d la = s1.pages.userByte d la := by
        intro la
        rw [hpages]
        rfl
      refine ⟨s2, he2, h2, ?_, ?_, hperm.mem_iff.2 List.mem_cons_self⟩
      · intro la hne
        rw [hpte] at hne
        exact hin (hc1 la hne)
      · intro i hi
        exact (hs1 i hi).keeps ⟨hin, fun _ => hpte _, fun _ => hbyte _⟩

end
/-! ## A page fault in the new memory -/

section

variable {A : Allocator} {s0 s s' : Frames} {d : Nat} {mm mm' : Mm} {la : Word}

/-- A page table for an address of an area. -/
theorem Building.newTable {t : Page} (b : Building s0 d s mm) (hla : InVmas mm.mmap_list la)
    (hn : s.table d (PDX la) = none) (hf : s.free t = true) :
    Building s0 d (frames.newTable (s.taken t) d la t) mm := by
  have hpte := pte_newTable b.settled b.dir hn hf
  have hne : ∀ {p}, s.free p = false → p ≠ t := by
    rintro p hp rfl
    rw [hf] at hp
    cases hp
  have hfree : ∀ p, (frames.newTable (s.taken t) d la t).free p = false ↔
      s.free p = false ∨ p = t := fun p => free_taken s t p
  refine ⟨b.settled.newTable b.dir hn hf, b.fresh, b.dirs, b.pgdir, ?_, ?_, ?_, ?_, ?_, b.count,
    b.list, b.areas⟩
  · intro d' hd'
    rw [← b.others d' hd']
    exact update_of_ne hd' _ _
  · intro p hp
    obtain ⟨h1, h2, h3⟩ := b.taken p hp
    refine ⟨(hfree p).2 (Or.inl h1), ?_, ?_⟩
    · rw [← h2]
      exact update_of_ne (hne h1) _ _
    · rw [mem_newTable (hne h1), h3]
  · intro p hp hfp
    simp only [table_newTable, hpte, true_and]
    rcases (hfree p).1 hfp with h1 | rfl
    · rcases b.owned p hp h1 with ⟨i, hi, ht⟩ | hm
      · left
        refine ⟨i, hi, ?_⟩
        rw [if_neg]
        · exact ht
        · rintro rfl
          rw [hn] at ht
          cases ht
      · exact Or.inr hm
    · left
      exact ⟨PDX la, PDX_lt la, if_pos rfl⟩
  · intro i hi t' ht'
    rw [table_newTable] at ht'
    split at ht'
    · next he =>
      obtain rfl := Option.some_inj.1 ht'
      exact ⟨b.free hf, la, hla, he.2.symm⟩
    · exact b.tables i hi t' ht'
  · intro a p hp
    rw [hpte] at hp
    obtain ⟨h1, h2, h3⟩ := b.mapped a p hp
    refine ⟨h1, h2, ?_⟩
    rw [← h3]
    exact update_of_ne (hne (b.frame hp).1) _ _

/-- The pages that are mapped stay, with what stands in them. -/
def KeepsPages (d : Nat) (s s' : Frames) : Prop :=
  ∀ la p, entryPage (s.pte d la) = some p → s'.pte d la = s.pte d la ∧ s'.mem p = s.mem p

theorem KeepsPages.trans {s'' : Frames} (h : KeepsPages d s s') (h' : KeepsPages d s' s'') :
    KeepsPages d s s'' := by
  intro la p hp
  obtain ⟨h1, h2⟩ := h la p hp
  obtain ⟨h3, h4⟩ := h' la p (by rw [h1]; exact hp)
  exact ⟨h3.trans h1, h4.trans h2⟩

theorem KeepsPages.userByte (h : KeepsPages d s s') {la : Word} {x : Byte}
    (hx : s.userByte d la = some x) : s'.userByte d la = some x := by
  obtain ⟨p, hp, rfl⟩ := Option.map_eq_some_iff.1 hx
  obtain ⟨h1, h2⟩ := h la p hp
  unfold Frames.userByte
  rw [h1, hp, Option.map_some]
  unfold Frames.byte
  rw [h2]

theorem PageAdded.keepsPages {perm : Word} {page t : Page} (hs : Settled s) (hd : d ∈ s.dirs)
    (ha : s.pte d la = 0#32) (h : PageAdded d la perm page t s s') : KeepsPages d s s' := by
  intro a p hp
  constructor
  · rw [h.pte, if_neg]
    intro hsame
    rw [pte_samePage hsame, ha, entryPage_zero] at hp
    cases hp
  · exact h.mem p (h.other hs hd hp).2

/-- What `do_pgfault` leaves where it is served. -/
theorem do_pgfault_served {error_code : Nat} {addr : Word} (b : Building s0 d s mm)
    {cur cur' : Mm} (hl : ListOk cur) (ha : cur.mmap_list = mm.mmap_list) (hpg : cur.pgdir = d)
    (h : do_pgfault A s cur error_code addr = (s', cur', true)) :
    Building s0 d s' mm ∧ ListOk cur' ∧ SameAreas cur cur' ∧ KeepsPages d s s' ∧
      InVmas mm.mmap_list addr ∧ ∃ p, entryPage (s'.pte d addr) = some p := by
  have hsame := SameAreas.find_vma hl addr
  have hok := hl.find_vma addr
  unfold do_pgfault at h
  rcases hfind : nehcpu.kernel.find_vma cur addr with ⟨found, cur1⟩
  have hfind' : (nehcpu.kernel.find_vma cur addr).1 = found := by rw [hfind]
  rw [hfind] at h hsame hok
  simp only at h hsame hok
  cases found with
  | none => simp only [Prod.mk.injEq, Bool.false_eq_true, and_false] at h
  | some vma =>
    simp only at h
    split at h
    · simp only [Prod.mk.injEq, Bool.false_eq_true, and_false] at h
    next hin =>
    have hvma : vma ∈ mm.mmap_list ∧ addr < vma.vm_end := by
      rw [find_vma_eq hl] at hfind'
      have hend := List.find?_some hfind'
      rw [← ha]
      exact ⟨List.mem_of_find?_eq_some hfind', of_decide_eq_true hend⟩
    have hlo : vma.vm_start ≤ addr := BitVec.not_lt.1 fun hc => hin (Or.inl hc)
    have hpage : SamePage (ROUNDDOWN_2N addr PGSHIFT) addr := by
      rw [samePage_iff, toNat_page]
      omega
    have hinA : InVmas mm.mmap_list addr := ⟨vma, hvma.1, hlo, hvma.2⟩
    have hinP : InVmas mm.mmap_list (ROUNDDOWN_2N addr PGSHIFT) := hinA.samePage b.areas hpage
    rw [hsame.pgdir, hpg] at h
    -- the page table of the address
    obtain ⟨ptep, s1, hg, hb1, hk1, hrest⟩ : ∃ ptep s1,
        get_pte A s d (ROUNDDOWN_2N addr PGSHIFT) true = (some ptep, s1) ∧
          Building s0 d s1 mm ∧ KeepsPages d s s1 ∧
            s1.pte d (ROUNDDOWN_2N addr PGSHIFT) = s1.load ptep := by
      rcases get_pte_cases A s d (ROUNDDOWN_2N addr PGSHIFT) true with
        ⟨t, ht, hg⟩ | ⟨-, tick, hg⟩ | ⟨hn, -, t, hf, hg⟩
      · exact ⟨_, _, hg, b, fun _ _ _ => ⟨rfl, rfl⟩, pte_eq ht⟩
      · rw [hg] at h
        simp only [Prod.mk.injEq, Bool.false_eq_true, and_false] at h
      · have hkept := get_pte_kept b.settled b.dir hg
        refine ⟨_, _, hg, b.newTable hinP hn hf, ?_, ?_⟩
        · intro a p hp
          refine ⟨hkept.2.2.1 a, mem_newTable ?_⟩
          rintro rfl
          rw [(b.frame hp).1] at hf
          cases hf
        · exact pte_eq hkept.2.1.table
    rw [hg] at h
    simp only at h
    split at h
    · next hz =>
      rw [← hrest] at hz
      rcases pgdir_alloc_page_added (A := A) hb1.settled hb1.dir hz (areaPerm_lt vma.vm_flags) with
        ⟨tick, he⟩ | ⟨page, t, s2, he, hadd⟩
      · rw [he] at h
        simp only [Prod.mk.injEq, Bool.false_eq_true, and_false] at h
      · rw [he] at h
        simp only [Prod.mk.injEq, and_true] at h
        obtain ⟨rfl, rfl⟩ := h
        refine ⟨hb1.added hinP hz (areaPerm_lt vma.vm_flags) hadd, hok, hsame,
          hk1.trans (hadd.keepsPages hb1.settled hb1.dir hz), hinA, page, ?_⟩
        rw [hadd.pte, if_pos ⟨hpage.1.symm, hpage.2.symm⟩,
          entryPage_insert page (areaPerm_lt vma.vm_flags)]
    · simp only [Prod.mk.injEq, Bool.false_eq_true, and_false] at h

end
/-! ## The argument block, store by store -/

def stores : Word → List Byte → List (Word × Byte)
  | _, [] => []
  | va, b :: bs => (va, b) :: stores (va + 1#32) bs

/-- The stores of `storeArgs`, one after the other. -/
def argStores (stacktop uargv : Word) : Nat → List (List Byte) → List (Word × Byte)
  | _, [] => []
  | i, arg :: args =>
    let dst := stacktop + BitVec.ofNat 32 i * PGSIZE
    stores dst (arg ++ [0#8]) ++ (stores (uargv + 4#32 * BitVec.ofNat 32 i) (wordBytes dst) ++
      argStores stacktop uargv (i + 1) args)

/-- The stores of the argument block. -/
def blockStores (kargv : List (List Byte)) : List (Word × Byte) :=
  argStores (argTop kargv.length) (argArray kargv.length) 0 kargv

/-- The byte of the last store at an address. -/
def written : List (Word × Byte) → Word → Option Byte
  | [], _ => none
  | (va, b) :: l, a => (written l a).or (if a = va then some b else none)

def storeAll (A : Allocator) : List (Word × Byte) → Loader → Option Loader
  | [], s => some s
  | (va, b) :: l, s => (storeByte A va b s).bind (storeAll A l)

section

variable {A : Allocator}

theorem storeAll_append (l l' : List (Word × Byte)) (s : Loader) :
    storeAll A (l ++ l') s = (storeAll A l s).bind (storeAll A l') := by
  induction l generalizing s with
  | nil => rfl
  | cons x l ih =>
    obtain ⟨va, b⟩ := x
    show (storeByte A va b s).bind (storeAll A (l ++ l')) = _
    rcases hs : storeByte A va b s with _ | s1
    · simp only [storeAll, hs, Option.bind_none]
    · simp only [storeAll, hs, Option.bind_some]
      exact ih s1

theorem storeBytes_eq (va : Word) (bs : List Byte) (s : Loader) :
    storeBytes A va bs s = storeAll A (stores va bs) s := by
  induction bs generalizing va s with
  | nil => rfl
  | cons b bs ih =>
    unfold storeBytes stores storeAll
    rcases storeByte A va b s with _ | s1
    · rfl
    · exact ih (va + 1#32) s1

theorem storeArgs_eq (stacktop uargv : Word) (i : Nat) (args : List (List Byte)) (s : Loader) :
    storeArgs A stacktop uargv i args s = storeAll A (argStores stacktop uargv i args) s := by
  induction args generalizing i s with
  | nil => rfl
  | cons arg args ih =>
    unfold storeArgs argStores
    simp only
    rw [storeAll_append, ← storeBytes_eq]
    rcases hs : storeBytes A (stacktop + BitVec.ofNat 32 i * PGSIZE) (arg ++ [0#8]) s with _ | s1
    · rfl
    · simp only [Option.bind_some]
      rw [storeAll_append, ← storeBytes_eq]
      rcases hs' : storeBytes A (uargv + 4#32 * BitVec.ofNat 32 i)
        (wordBytes (stacktop + BitVec.ofNat 32 i * PGSIZE)) s1 with _ | s2
      · rfl
      · exact ih (i + 1) s2

end

/-- While the arguments are stored: the areas are those of `mm`, and the memory is as sound as when
it was made. -/
structure Running (s0 : Frames) (d : Nat) (mm : Mm) (s : Loader) : Prop where
  building : Building s0 d s.pages mm
  list : ListOk s.mm
  areas : s.mm.mmap_list = mm.mmap_list
  pgdir : s.mm.pgdir = d

section

variable {A : Allocator} {s0 : Frames} {d : Nat} {mm : Mm} {s s' : Loader} {va : Word}

theorem userPage_spec {page : Page} (r : Running s0 d mm s)
    (h : userPage A va s = some (page, s')) :
    Running s0 d mm s' ∧ KeepsPages d s.pages s'.pages ∧
      entryPage (s'.pages.pte d va) = some page ∧ InVmas mm.mmap_list va := by
  unfold userPage at h
  simp only at h
  rw [r.pgdir] at h
  split at h
  · split at h
    · cases h
    · next frames mm' hf =>
      simp only [Option.some.injEq, Prod.mk.injEq] at h
      obtain ⟨hpage, rfl⟩ := h
      obtain ⟨hb, hl, hsame, hk, hin, p, hp⟩ :=
        do_pgfault_served r.building r.list r.areas r.pgdir hf
      have hpg : mm'.pgdir = d := hsame.pgdir.trans r.pgdir
      refine ⟨⟨hb, hl, hsame.mmap_list.trans r.areas, hpg⟩, hk, ?_, hin⟩
      show entryPage (frames.pte d va) = some page
      rw [hpg, (entryPage_eq_some.1 hp).2] at hpage
      rw [hp, hpage]
  · split at h
    · next hpres =>
      simp only [Option.some.injEq, Prod.mk.injEq] at h
      obtain ⟨rfl, rfl⟩ := h
      have hp := entryPage_eq_some.2 ⟨hpres.1, rfl⟩
      exact ⟨r, fun _ _ _ => ⟨rfl, rfl⟩, hp, (r.building.mapped va _ hp).2.1⟩
    · cases h

/-- One store: the byte is there, and all others stay. -/
theorem storeByte_spec {b : Byte} (r : Running s0 d mm s) (h : storeByte A va b s = some s') :
    Running s0 d mm s' ∧ s'.pages.userByte d va = some b ∧
      (∀ a x, a ≠ va → s.pages.userByte d a = some x → s'.pages.userByte d a = some x) ∧
      ∀ a p, entryPage (s.pages.pte d a) = some p → s'.pages.pte d a = s.pages.pte d a := by
  unfold storeByte at h
  rcases hu : userPage A va s with _ | ⟨page, s1⟩
  · rw [hu] at h
    cases h
  rw [hu] at h
  obtain rfl := Option.some_inj.1 h
  obtain ⟨r1, hk, hp, hin⟩ := userPage_spec r hu
  have hb := r1.building
  obtain ⟨hf, hn⟩ := hb.frame hp
  have hpte : ∀ a, (s1.pages.putByte page (va.toNat % 4096) b).pte d a = s1.pages.pte d a :=
    pte_putBytes hn hb.dir (va.toNat % 4096) [b]
  have hbyte : ∀ a, (s1.pages.putByte page (va.toNat % 4096) b).userByte d a =
      (entryPage (s1.pages.pte d a)).map fun q =>
        if q = page ∧ a.toNat % 4096 = va.toNat % 4096 then b
        else s1.pages.byte q (a.toNat % 4096) := by
    intro a
    unfold Frames.userByte
    rw [hpte]
    simp only [byte_putByte]
  refine ⟨⟨hb.wrote (hb.mapped va page hp).1 hn _ [b], r1.list, r1.areas, r1.pgdir⟩, ?_, ?_, ?_⟩
  · show (s1.pages.putByte page (va.toNat % 4096) b).userByte d va = some b
    rw [hbyte, hp, Option.map_some, if_pos ⟨rfl, rfl⟩]
  · intro a x hne hx
    have hx1 := hk.userByte hx
    obtain ⟨q, hq, rfl⟩ := Option.map_eq_some_iff.1 hx1
    show (s1.pages.putByte page (va.toNat % 4096) b).userByte d a = _
    rw [hbyte, hq, Option.map_some, if_neg]
    rintro ⟨rfl, hmod⟩
    have hsame := (samePage_iff a va).1 (hb.only hq hp)
    exact hne (BitVec.eq_of_toNat_eq (by omega))
  · intro a p ha
    show (s1.pages.putByte page (va.toNat % 4096) b).pte d a = _
    rw [hpte, (hk a p ha).1]

theorem storeAll_spec {l : List (Word × Byte)} (r : Running s0 d mm s)
    (h : storeAll A l s = some s') :
    Running s0 d mm s' ∧ (∀ a b, written l a = some b → s'.pages.userByte d a = some b) ∧
      (∀ a x, written l a = none → s.pages.userByte d a = some x →
        s'.pages.userByte d a = some x) ∧
      ∀ a p, entryPage (s.pages.pte d a) = some p → s'.pages.pte d a = s.pages.pte d a := by
  induction l generalizing s with
  | nil =>
    obtain rfl := Option.some_inj.1 h
    exact ⟨r, fun _ _ hw => (nomatch hw), fun _ _ _ hx => hx, fun _ _ _ => rfl⟩
  | cons x l ih =>
    obtain ⟨va, b⟩ := x
    obtain ⟨s1, hs1, hrest⟩ := Option.bind_eq_some_iff.1 h
    obtain ⟨r1, hb1, hk1, hp1⟩ := storeByte_spec r hs1
    obtain ⟨r2, hb2, hk2, hp2⟩ := ih r1 hrest
    refine ⟨r2, ?_, ?_, ?_⟩
    · intro a c hw
      have hw' : (written l a).or (if a = va then some b else none) = some c := hw
      rcases hl : written l a with _ | c'
      · rw [hl, Option.none_or] at hw'
        split at hw'
        · next he =>
          obtain rfl := Option.some_inj.1 hw'
          rw [he] at hl ⊢
          exact hk2 va b hl hb1
        · cases hw'
      · rw [hl, Option.some_or] at hw'
        obtain rfl := Option.some_inj.1 hw'
        exact hb2 a c' hl
    · intro a x hw hx
      have hw' : (written l a).or (if a = va then some b else none) = none := hw
      rw [Option.or_eq_none_iff] at hw'
      obtain ⟨hl, hne⟩ := hw'
      refine hk2 a x hl (hk1 a x ?_ hx)
      rintro rfl
      rw [if_pos rfl] at hne
      cases hne
    · intro a p ha
      have h1 := hp1 a p ha
      rw [hp2 a p (by rw [h1]; exact ha), h1]

end
/-! ## The whole call -/

/-- Each byte of the segment stands in the memory, and the page of each is mapped once, with the
permission of the segment. -/
structure SegLoaded (F : File) (ph : Proghdr) (s : Loader) : Prop where
  bytes : ∀ k < ph.p_memsz.toNat,
    s.pages.userByte s.mm.pgdir (ph.p_va + BitVec.ofNat 32 k) = some (segByte F ph k)
  pages : ∀ k < ph.p_memsz.toNat, ∃ page,
    s.pages.pte s.mm.pgdir (ph.p_va + BitVec.ofNat 32 k) =
      page2pa page ||| PTE_P ||| areaPerm (segFlags ph) ∧ s.pages.count page = 1

/-- How `load_icode` should end: no assertion fails. Where it fails, all that it took is back. Where
the program runs, its segments are loaded. -/
def LoadsSegments (F : File) (frames : Frames) (heap : Nat) : Option Loaded → Prop
  | none => False
  | some (.fails ret s heap') => ret ≠ 0#32 ∧ Restored frames s ∧ heap' = heap
  | some (.runs _ s) => ∀ i, Loadable F i → SegLoaded F (F.proghdr i) s
  | some .faults => True

/-- Where the argument block is stored over a segment, the bytes are those of the segment. -/
def BlockAgrees (F : File) (kargv : List (List Byte)) : Prop :=
  ∀ i, Loadable F i → ∀ k < (F.proghdr i).p_memsz.toNat, ∀ b,
    written (blockStores kargv) ((F.proghdr i).p_va + BitVec.ofNat 32 k) = some b →
      b = segByte F (F.proghdr i) k

section

variable {A : Allocator} {F : File} {s0 : Frames} {h0 d : Nat} {s s' : Loader}

theorem cleanup_pgdir_setup (ret : Word) (h0 : Nat) (hd : d ∉ s0.dirs) :
    ∃ s', cleanup_pgdir ret (setup_pgdir s0 d) (mm_create d) (h0 + 1) =
      some (.fails ret s' h0) ∧ Restored s0 s' := by
  refine ⟨put_pgdir (setup_pgdir s0 d) (mm_create d), rfl, ?_, ?_, rfl, rfl, fun _ _ => rfl⟩
  · exact Finset.erase_insert hd
  · intro d' hd'
    have hne : d' ≠ d := fun he => hd (he ▸ hd')
    exact update_of_ne hne _ _

theorem cleanup_mmap_spec (h0s : Settled s0) (h : Held s0 h0 d s) (ret : Word) :
    ∃ s', cleanup_mmap A ret s = some (.fails ret s' h0) ∧ Restored s0 s' := by
  obtain ⟨frames, he, hr⟩ := h.building.restored h0s A
  refine ⟨put_pgdir frames s.mm, ?_, hr⟩
  have hheap : s.heap - (s.mm.mmap_list.length + 1) = h0 := by
    rw [h.heap]
    omega
  unfold cleanup_mmap cleanup_pgdir mm_destroy
  rw [he, Option.bind_some, if_pos h.building.count, hheap]
  rfl

theorem AreasLoaded.running (h : AreasLoaded F s0 h0 d s) :
    Running s0 d s.mm { s with mm := { s.mm with mm_count := s.mm.mm_count + 1 } } := by
  have hb := h.held.building
  exact ⟨hb, ⟨hb.list.separated, hb.list.count, hb.list.cache⟩, rfl, hb.pgdir⟩

/-- The stores keep the segments where they agree with them. -/
theorem SegLoaded.of_stores {l : List (Word × Byte)} {ph : Proghdr} {mm : Mm}
    (hs : InMemory F ph d s) (r : Running s0 d mm s) (h : storeAll A l s = some s')
    (hl : ∀ k < ph.p_memsz.toNat, ∀ b, written l (ph.p_va + BitVec.ofNat 32 k) = some b →
      b = segByte F ph k) : SegLoaded F ph s' := by
  obtain ⟨r', hw, hk, hp⟩ := storeAll_spec r h
  constructor
  · intro k hlt
    rw [r'.pgdir]
    rcases hwk : written l (ph.p_va + BitVec.ofNat 32 k) with _ | b
    · exact hk _ _ hwk (hs.bytes k hlt)
    · rw [hw _ _ hwk, hl k hlt b hwk]
  · intro k hlt
    obtain ⟨page, hpte⟩ := hs.pages k hlt
    have hent : entryPage (s.pages.pte d (ph.p_va + BitVec.ofNat 32 k)) = some page := by
      rw [hpte, entryPage_insert page (areaPerm_lt _)]
    have hpte' := hp _ _ hent
    rw [r'.pgdir]
    refine ⟨page, hpte'.trans hpte, ?_⟩
    -- its count is what the reference count says
    have hent' : entryPage (s'.pages.pte d (ph.p_va + BitVec.ofNat 32 k)) = some page := by
      rw [hpte', hent]
    have hone := (r'.building.mapped _ _ hent').2.2
    have hu := r'.building.settled.user (r'.building.frame hent').2
    omega

/-- Without a segment that wraps `load_icode` gives its memory back, or it comes to the start of the
program with all segments. -/
theorem load_icode_ends {newdir : Option Nat} {frames : Frames} (hset : Settled frames)
    (hnew : ∀ d ∈ newdir, d ∉ frames.dirs) (hw : ∀ i, Loadable F i → ¬ Wraps (F.proghdr i))
    (kargv : List (List Byte)) (status : Word) (heap : Nat) :
    (∃ ret s', load_icode A F newdir status kargv frames heap = some (.fails ret s' heap) ∧
      ret ≠ 0#32 ∧ Restored frames s') ∨
    ∃ s0 d s, AreasLoaded F s0 heap d s ∧
      load_icode A F newdir status kargv frames heap =
        some (startProgram A F.elfhdr status kargv s) := by
  have hsame : Restored frames { frames with tick := frames.tick + 1 } :=
    ⟨rfl, fun _ _ => rfl, rfl, rfl, fun _ _ => rfl⟩
  unfold load_icode
  split
  · exact Or.inl ⟨_, _, rfl, by decide, hsame⟩
  simp only
  cases newdir with
  | none => exact Or.inl ⟨_, _, rfl, by decide, hsame⟩
  | some d =>
    simp only
    have hd : d ∉ ({ frames with tick := frames.tick + 1 } : Frames).dirs := hnew d rfl
    obtain ⟨s0, hs0⟩ : ∃ s0 : Frames, s0 = { frames with tick := frames.tick + 1 } := ⟨_, rfl⟩
    have hset0 : Settled s0 := by
      rw [hs0]
      exact hset.tick _
    rw [← hs0] at hd hsame ⊢
    have hback : ∀ {s'}, Restored s0 s' → Restored frames s' := by
      intro s' hr
      rw [hs0] at hr
      exact ⟨hr.dirs, hr.pgdirs, hr.free, hr.ref, hr.mem⟩
    have hfails : ∀ {ret : Word}, ret ≠ 0#32 → ∃ ret' s',
        cleanup_pgdir ret (setup_pgdir s0 d) (mm_create d) (heap + 1) =
          some (.fails ret' s' heap) ∧ ret' ≠ 0#32 ∧ Restored frames s' := by
      intro ret hret
      obtain ⟨s', he, hr⟩ := cleanup_pgdir_setup ret heap hd
      exact ⟨ret, s', he, hret, hback hr⟩
    rcases hread : load_icode_read F 0 ELFHDR_SIZE 0#32 with ⟨ret, bs⟩
    simp only
    by_cases hret : ret = 0#32
    · rw [if_neg (not_not.2 hret)]
      have hok := load_icode_read_ok F 0 ELFHDR_SIZE 0#32 (by decide) (by rw [hread]; exact hret)
      rw [hread] at hok
      have helf : _load_elfhdr bs = F.elfhdr := by
        have hbs : bs = (List.range 52).map fun k => F.bytes (0 + k) := hok.2
        simp only [Nat.zero_add] at hbs
        rw [hbs]
        rfl
      rw [helf]
      split
      · exact Or.inl (hfails (by decide))
      · have hheld : Held s0 heap d ⟨setup_pgdir s0 d, mm_create d, heap + 1, 1⟩ :=
          ⟨Building.start hset0 hd, rfl⟩
        have hclean : Clean d ⟨setup_pgdir s0 d, mm_create d, heap + 1, 1⟩ := by
          intro la hne
          refine absurd ?_ hne
          have htab : (setup_pgdir s0 d).table d (PDX la) = none := by
            show entryPage (update s0.pgdirs d (fun _ => 0#32) d (PDX la)) = none
            rw [update_self, entryPage_zero]
          show (setup_pgdir s0 d).pte d la = 0#32
          unfold Frames.pte
          rw [htab]
        rcases loadAreas_spec (A := A) hw hheld hclean with
          ⟨ret', s', he, hret', hh⟩ | ⟨s', he, hl⟩
        · left
          rw [he]
          obtain ⟨s'', hc, hr⟩ := cleanup_mmap_spec (A := A) hset0 hh ret'
          exact ⟨ret', s'', hc, hret', hback hr⟩
        · right
          rw [he]
          exact ⟨s0, d, s', hl, rfl⟩
    · rw [if_pos hret]
      exact Or.inl (hfails hret)

theorem startProgram_runs {status : Word} {kargv : List (List Byte)} {tf : trap.Trapframe}
    (h : AreasLoaded F s0 h0 d s) (he : startProgram A F.elfhdr status kargv s = .runs tf s') :
    ∃ s1, Running s0 d s.mm s1 ∧ (∀ i, Loadable F i → InMemory F (F.proghdr i) d s1) ∧
      storeAll A (blockStores kargv) s1 = some s' := by
  unfold startProgram at he
  simp only at he
  rw [storeArgs_eq] at he
  split at he
  · cases he
  · next s2 hs =>
    obtain ⟨-, rfl⟩ := Loaded.runs.inj he
    refine ⟨_, h.running, ?_, hs⟩
    intro i hi
    have hi' := h.segments i hi
    exact ⟨hi'.bytes, hi'.pages, hi'.inside⟩

/-- Then the segments are loaded just if the argument block agrees with them. -/
theorem load_icode_loads {newdir : Option Nat} {frames : Frames} (hset : Settled frames)
    (hnew : ∀ d ∈ newdir, d ∉ frames.dirs) (hw : ∀ i, Loadable F i → ¬ Wraps (F.proghdr i))
    (kargv : List (List Byte)) (status : Word) (heap : Nat) :
    (BlockAgrees F kargv →
      LoadsSegments F frames heap (load_icode A F newdir status kargv frames heap)) ∧
    ∀ tf s, load_icode A F newdir status kargv frames heap = some (.runs tf s) →
      LoadsSegments F frames heap (some (.runs tf s)) → BlockAgrees F kargv := by
  rcases load_icode_ends (A := A) hset hnew hw kargv status heap with
    ⟨ret, s', he, hret, hr⟩ | ⟨s0, d, s, h, he⟩
  · rw [he]
    exact ⟨fun _ => ⟨hret, hr, rfl⟩, fun _ _ hc => nomatch hc⟩
  · rw [he]
    constructor
    · intro hb
      rcases hs : startProgram A F.elfhdr status kargv s with _ | ⟨tf, s'⟩ | _
      · unfold startProgram at hs
        simp only at hs
        split at hs
        · cases hs
        · cases hs
      · intro i hi
        obtain ⟨s1, hr, hin, hst⟩ := startProgram_runs h hs
        exact SegLoaded.of_stores (hin i hi) hr hst (hb i hi)
      · trivial
    · intro tf s' hs hl i hi k hk b hwr
      obtain ⟨s1, hr, -, hst⟩ := startProgram_runs h (Option.some_inj.1 hs)
      obtain ⟨hr', hbyte, -, -⟩ := storeAll_spec hr hst
      have h1 := hbyte _ _ hwr
      have h2 := (hl i hi).bytes k hk
      rw [hr'.pgdir, h1] at h2
      exact Option.some_inj.1 h2

end

end nehcpu.kernel.frames
