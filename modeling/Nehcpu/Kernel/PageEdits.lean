-- What the functions of `pmm.c` do to the page tables and to the TLB: every change
-- of an entry comes with a flush of the whole TLB.
import Nehcpu.Kernel.PageTable

namespace nehcpu.kernel

open cpu

/-! ## The flush -/

/-- An address of the user segment. -/
def UserAddr (va : Word) : Prop := va < USERTOP

/-- No entry is for a user address, and no two entries are for the same pair. -/
structure TlbClean (tlb : Tlb) : Prop where
  distinct : ∀ i j, vpn2 (tlb i) = vpn2 (tlb j) → i = j
  noUser : ∀ i va, UserAddr va → vpn2 (tlb i) ≠ vpn2Of va

/-- Each entry holds the words of the last round that wrote it. -/
theorem invalidateLoop_apply (n : Nat) (tlb : Tlb) (j : BitVec 4) (hj : j.toNat < n) :
    ∃ i, i < n ∧ n ≤ i + 16 ∧ i % 16 = j.toNat ∧
      invalidateLoop n tlb j = (invalidWords i).entry := by
  induction n with
  | zero => omega
  | succ n ih =>
    have hs : invalidateLoop (n + 1) tlb j =
        if j = BitVec.ofNat 4 n then (invalidWords n).entry else invalidateLoop n tlb j := by
      unfold invalidateLoop
      rw [List.range_succ, List.foldl_append, List.foldl_cons, List.foldl_nil, write_one_tlb,
        Tlb.next_apply]
      simp only [true_and]
    have hn : j = BitVec.ofNat 4 n ↔ j.toNat = n % 16 := by
      rw [← BitVec.toNat_inj, BitVec.toNat_ofNat]
    by_cases h : j = BitVec.ofNat 4 n
    · rw [hs, if_pos h]
      exact ⟨n, by omega, by omega, (hn.1 h).symm, rfl⟩
    · have hne : j.toNat ≠ n % 16 := fun he => h (hn.2 he)
      have hlt := j.isLt
      obtain ⟨i, hi, hi16, him, he⟩ := ih (by omega)
      rw [hs, if_neg h]
      exact ⟨i, by omega, by omega, him, he⟩

theorem toNat_vpn2_invalid (i : Nat) (hi : i < 128) :
    (vpn2 (invalidWords i).entry).toNat = 262144 + 128 * i := by
  unfold EntryWords.entry invalidWords
  rw [vpn2_packEntry, BitVec.extractLsb'_toNat, Nat.shiftRight_eq_div_pow, BitVec.toNat_add,
    BitVec.toNat_shiftLeft, BitVec.toNat_ofNat, BitVec.toNat_ofNat, Nat.shiftLeft_eq]
  omega

theorem flush_clean (vm : Vm) : TlbClean (tlb_invalidate_all vm).tlb := by
  have hv (j : BitVec 4) : ∃ i, 112 ≤ i ∧ i < 128 ∧ i % 16 = j.toNat ∧
      (vpn2 ((tlb_invalidate_all vm).tlb j)).toNat = 262144 + 128 * i := by
    have hlt := j.isLt
    obtain ⟨i, hi, hi16, him, he⟩ := invalidateLoop_apply 128 vm.tlb j (by omega)
    refine ⟨i, by omega, hi, him, ?_⟩
    have ht : (tlb_invalidate_all vm).tlb j = (invalidWords i).entry := he
    rw [ht, toNat_vpn2_invalid i hi]
  constructor
  · intro j j' h
    obtain ⟨i, -, -, him, hi⟩ := hv j
    obtain ⟨i', -, -, him', hi'⟩ := hv j'
    rw [h, hi'] at hi
    apply BitVec.eq_of_toNat_eq
    omega
  · intro j va hva h
    obtain ⟨i, -, -, -, hi⟩ := hv j
    rw [h, toNat_vpn2Of] at hi
    have hlt : va.toNat < 2147483648 := hva
    omega

/-! ## Entries of a page directory -/

/-- Two addresses of one page. -/
def SamePage (la la' : Word) : Prop := PDX la = PDX la' ∧ PTX la = PTX la'

theorem PDX_eq (la : Word) : PDX la = la.toNat / 4194304 := by
  unfold PDX
  rw [BitVec.extractLsb'_toNat, Nat.shiftRight_eq_div_pow]
  have := la.isLt
  omega

theorem samePage_iff (la la' : Word) : SamePage la la' ↔ la.toNat / 4096 = la'.toNat / 4096 := by
  unfold SamePage
  rw [PDX_eq, PDX_eq, PTX_eq, PTX_eq]
  omega

instance (la la' : Word) : Decidable (SamePage la la') :=
  inferInstanceAs (Decidable (_ ∧ _))

theorem pteAt_samePage {pd : Pgdir} {la la' : Word} (h : SamePage la la') :
    pteAt pd la = pteAt pd la' := by
  unfold pteAt
  rw [h.1, h.2]

theorem pteAt_setPte (pd : Pgdir) (la la' : Word) (pte : pte_t) :
    pteAt (setPte pd la pte) la' =
      if SamePage la' la ∧ pd (PDX la) ≠ none then pte else pteAt pd la' := by
  unfold pteAt setPte
  by_cases hd : PDX la' = PDX la
  · rw [if_pos hd, hd]
    rcases pd (PDX la) with _ | table
    · simp
    · by_cases ht : PTX la' = PTX la
      · simp [SamePage, hd, ht]
      · simp [SamePage, ht]
  · rw [if_neg hd, if_neg fun h => hd h.1.1]

/-- A page table that is made holds zeros. -/
theorem pteAt_get_pte {pd pd' : Pgdir} {la : Word} {create : Bool}
    (h : get_pte pd la create = some pd') : ∀ la', pteAt pd' la' = pteAt pd la' := by
  intro la'
  unfold get_pte at h
  rcases hd : pd (PDX la) with _ | table
  · rw [hd] at h
    cases create with
    | false => cases h
    | true =>
      obtain rfl := Option.some_inj.1 h
      unfold pteAt
      by_cases hl : PDX la' = PDX la
      · simp only [hl, ↓reduceIte, hd]
      · simp only [hl, ↓reduceIte]
  · rw [hd] at h
    obtain rfl := Option.some_inj.1 h
    rfl

theorem table_get_pte {pd pd' : Pgdir} {la : Word} {create : Bool}
    (h : get_pte pd la create = some pd') : pd' (PDX la) ≠ none := by
  unfold get_pte at h
  rcases hd : pd (PDX la) with _ | table
  · rw [hd] at h
    cases create with
    | false => cases h
    | true =>
      obtain rfl := Option.some_inj.1 h
      simp
  · rw [hd] at h
    obtain rfl := Option.some_inj.1 h
    rw [hd]
    simp

theorem table_of_pteAt {pd : Pgdir} {la : Word} (h : pteAt pd la ≠ 0#32) : pd (PDX la) ≠ none := by
  intro hn
  unfold pteAt at h
  rw [hn] at h
  exact h rfl

/-! ## Edits -/

@[simp] theorem pgdirs_setPgdir (vm : Vm) (f g : Nat) (pd : Pgdir) :
    (vm.setPgdir f pd).pgdirs g = if g = f then pd else vm.pgdirs g := rfl

@[simp] theorem pgdirs_flush (vm : Vm) : (tlb_invalidate_all vm).pgdirs = vm.pgdirs := rfl

/-- Only the directory `f` was edited, and the TLB was flushed if an entry changed. -/
structure Edit (f : Nat) (vm vm' : Vm) : Prop where
  others : ∀ g, g ≠ f → vm'.pgdirs g = vm.pgdirs g
  current : vm'.current_pgdir = vm.current_pgdir
  taken : vm'.taken = vm.taken
  flushed : TlbClean vm'.tlb ∨
    (vm'.tlb = vm.tlb ∧ ∀ la, pteAt (vm'.pgdirs f) la = pteAt (vm.pgdirs f) la)

theorem Edit.refl (f : Nat) (vm : Vm) : Edit f vm vm :=
  ⟨fun _ _ => rfl, rfl, rfl, Or.inr ⟨rfl, fun _ => rfl⟩⟩

theorem Edit.trans {f : Nat} {vm vm' vm'' : Vm} (h : Edit f vm vm') (h' : Edit f vm' vm'') :
    Edit f vm vm'' := by
  refine ⟨?_, h'.current.trans h.current, h'.taken.trans h.taken, ?_⟩
  · intro g hg
    rw [h'.others g hg, h.others g hg]
  · rcases h'.flushed with hc | ⟨ht, hp⟩
    · exact Or.inl hc
    · rcases h.flushed with hc | ⟨ht', hp'⟩
      · exact Or.inl (ht ▸ hc)
      · exact Or.inr ⟨ht.trans ht', fun la => (hp la).trans (hp' la)⟩

/-- A flush at the end makes any edit of one directory an `Edit`. -/
theorem Edit.of_flush {f : Nat} {vm vm' : Vm} (ho : ∀ g, g ≠ f → vm'.pgdirs g = vm.pgdirs g)
    (hc : vm'.current_pgdir = vm.current_pgdir) (ht : vm'.taken = vm.taken) :
    Edit f vm (tlb_invalidate_all vm') :=
  ⟨ho, hc, ht, Or.inl (flush_clean vm')⟩

/-- Entries only went away. -/
def Shrinks (f : Nat) (vm vm' : Vm) : Prop :=
  ∀ la, pteAt (vm'.pgdirs f) la = pteAt (vm.pgdirs f) la ∨ pteAt (vm'.pgdirs f) la = 0#32

theorem Shrinks.refl (f : Nat) (vm : Vm) : Shrinks f vm vm := fun _ => Or.inl rfl

theorem Shrinks.trans {f : Nat} {vm vm' vm'' : Vm} (h : Shrinks f vm vm')
    (h' : Shrinks f vm' vm'') : Shrinks f vm vm'' := by
  intro la
  rcases h' la with he | hz
  · rw [he]
    exact h la
  · exact Or.inr hz

theorem Shrinks.zero {f : Nat} {vm vm' : Vm} (h : Shrinks f vm vm') {la : Word}
    (hz : pteAt (vm.pgdirs f) la = 0#32) : pteAt (vm'.pgdirs f) la = 0#32 := by
  rcases h la with he | hz'
  · rw [he, hz]
  · exact hz'

/-- An entry is zero or present: there is no swapped page. -/
def PtesOk (pd : Pgdir) : Prop := ∀ la, pteAt pd la ≠ 0#32 → ptep_present (pteAt pd la) = true

theorem Shrinks.ptesOk {f : Nat} {vm vm' : Vm} (h : Shrinks f vm vm')
    (hok : PtesOk (vm.pgdirs f)) : PtesOk (vm'.pgdirs f) := by
  intro la hla
  rcases h la with he | hz
  · rw [he] at hla ⊢
    exact hok la hla
  · exact absurd hz hla

/-! ## `page_remove_pte`, `page_remove` and `page_insert` -/

theorem page_remove_pte_edit (vm : Vm) (f : Nat) (la : Word) :
    Edit f vm (page_remove_pte vm f la) := by
  unfold page_remove_pte
  split
  · refine Edit.of_flush ?_ rfl rfl
    intro g hg
    rw [pgdirs_setPgdir, if_neg hg]
  · exact Edit.of_flush (fun _ _ => rfl) rfl rfl

theorem pteAt_page_remove_pte (vm : Vm) (f : Nat) (la la' : Word) :
    pteAt ((page_remove_pte vm f la).pgdirs f) la' =
      if SamePage la' la ∧ ptep_present (pteAt (vm.pgdirs f) la) = true then 0#32
      else pteAt (vm.pgdirs f) la' := by
  unfold page_remove_pte
  rw [pgdirs_flush]
  by_cases hp : ptep_present (pteAt (vm.pgdirs f) la) = true
  · have hne : pteAt (vm.pgdirs f) la ≠ 0#32 := by
      intro hz
      rw [hz] at hp
      exact absurd hp (by decide)
    rw [if_pos hp, pgdirs_setPgdir, if_pos rfl, pteAt_setPte]
    simp only [hp, and_true, ne_eq, table_of_pteAt hne, not_false_eq_true]
  · rw [if_neg hp, if_neg fun h => hp h.2]

/-- The page tables stay where they are. -/
theorem table_page_remove_pte (vm : Vm) (f : Nat) (la : Word) (i : Nat)
    (h : vm.pgdirs f i ≠ none) : (page_remove_pte vm f la).pgdirs f i ≠ none := by
  unfold page_remove_pte
  rw [pgdirs_flush]
  split
  · rw [pgdirs_setPgdir, if_pos rfl]
    unfold setPte
    split
    · simpa using h
    · exact h
  · exact h

theorem page_remove_pte_shrinks (vm : Vm) (f : Nat) (la : Word) :
    Shrinks f vm (page_remove_pte vm f la) := by
  intro la'
  rw [pteAt_page_remove_pte]
  split
  · exact Or.inr rfl
  · exact Or.inl rfl

theorem page_remove_edit (vm : Vm) (f : Nat) (la : Word) : Edit f vm (page_remove vm f la) := by
  unfold page_remove
  split
  · exact Edit.refl f vm
  · exact page_remove_pte_edit vm f la

theorem page_remove_shrinks (vm : Vm) (f : Nat) (la : Word) :
    Shrinks f vm (page_remove vm f la) := by
  unfold page_remove
  split
  · exact Shrinks.refl f vm
  · exact page_remove_pte_shrinks vm f la

/-- `page_insert` flushes, and only the entry of its page may change, to a present one. -/
theorem page_insert_spec {vm vm' : Vm} {f : Nat} {page : BitVec 20} {la perm : Word}
    {create : Bool} (h : page_insert vm f page la perm create = some vm') :
    Edit f vm vm' ∧ TlbClean vm'.tlb ∧
      ∀ la', pteAt (vm'.pgdirs f) la' =
        if SamePage la' la then page2pa page ||| PTE_P ||| perm else pteAt (vm.pgdirs f) la' := by
  unfold page_insert at h
  rcases hg : get_pte (vm.pgdirs f) la create with _ | pd
  · rw [hg] at h
    cases h
  · rw [hg] at h
    obtain ⟨vm0, hvm0⟩ : ∃ vm0, vm0 = vm.setPgdir f pd := ⟨_, rfl⟩
    have hpd : vm0.pgdirs f = pd := by rw [hvm0, pgdirs_setPgdir, if_pos rfl]
    have h0 : ∀ g, g ≠ f → vm0.pgdirs g = vm.pgdirs g := by
      intro g hgf
      rw [hvm0, pgdirs_setPgdir, if_neg hgf]
    -- an entry of another page may have to go first
    obtain ⟨vm1, hvm1⟩ : ∃ vm1, vm1 =
        (if ptep_present (pteAt pd la) then
          if pte2page (pteAt pd la) = page then vm0 else page_remove_pte vm0 f la
        else vm0) := ⟨_, rfl⟩
    have h1 : vm1 = vm0 ∨ vm1 = page_remove_pte vm0 f la := by
      rw [hvm1]
      split
      · split
        · exact Or.inl rfl
        · exact Or.inr rfl
      · exact Or.inl rfl
    have hothers : ∀ g, g ≠ f → vm1.pgdirs g = vm.pgdirs g := by
      intro g hgf
      rcases h1 with rfl | rfl
      · exact h0 g hgf
      · rw [(page_remove_pte_edit vm0 f la).others g hgf, h0 g hgf]
    have htable : vm1.pgdirs f (PDX la) ≠ none := by
      have hne : vm0.pgdirs f (PDX la) ≠ none := by
        rw [hpd]
        exact table_get_pte hg
      rcases h1 with rfl | rfl
      · exact hne
      · exact table_page_remove_pte vm0 f la _ hne
    have hpte : ∀ la', ¬ SamePage la' la →
        pteAt (vm1.pgdirs f) la' = pteAt (vm.pgdirs f) la' := by
      intro la' hla'
      rw [← pteAt_get_pte hg la', ← hpd]
      rcases h1 with rfl | rfl
      · rfl
      · rw [pteAt_page_remove_pte, if_neg fun h => hla' h.1]
    have hcur : vm1.current_pgdir = vm.current_pgdir ∧ vm1.taken = vm.taken := by
      have hc0 : vm0.current_pgdir = vm.current_pgdir ∧ vm0.taken = vm.taken := by
        rw [hvm0]
        exact ⟨rfl, rfl⟩
      rcases h1 with rfl | rfl
      · exact hc0
      · have he := page_remove_pte_edit vm0 f la
        exact ⟨he.current.trans hc0.1, he.taken.trans hc0.2⟩
    simp only [← hvm0, ← hvm1] at h
    obtain rfl := Option.some_inj.1 h
    refine ⟨Edit.of_flush ?_ hcur.1 hcur.2, flush_clean _, ?_⟩
    · intro g hgf
      rw [pgdirs_setPgdir, if_neg hgf, hothers g hgf]
    · intro la'
      rw [pgdirs_flush, pgdirs_setPgdir, if_pos rfl, pteAt_setPte]
      by_cases hl : SamePage la' la
      · rw [if_pos ⟨hl, htable⟩, if_pos hl]
      · rw [if_neg fun h => hl h.1, if_neg hl, hpte la' hl]

/-! ## `unmap_range` -/

theorem toNat_ROUNDDOWN_2N (a : Word) (n : Nat) :
    (ROUNDDOWN_2N a n).toNat = a.toNat / 2 ^ n * 2 ^ n := by
  unfold ROUNDDOWN_2N
  rw [BitVec.toNat_shiftLeft, BitVec.toNat_ushiftRight, Nat.shiftLeft_eq, Nat.shiftRight_eq_div_pow]
  exact Nat.mod_eq_of_lt (lt_of_le_of_lt (Nat.div_mul_le_self _ _) a.isLt)

theorem toNat_page (a : Word) : (ROUNDDOWN_2N a PGSHIFT).toNat = a.toNat / 4096 * 4096 :=
  toNat_ROUNDDOWN_2N a 12

/-- One round: the entries up to the next address are gone. -/
theorem unmapLoop_round {f : Nat} {start stop : Word} (rounds : Nat) {vm : Vm}
    (hal : start.toNat % 4096 = 0) (hlt : start < stop) (htop : stop ≤ USERTOP)
    (hok : PtesOk (vm.pgdirs f)) :
    ∃ vm1 start1, Edit f vm vm1 ∧ Shrinks f vm vm1 ∧ start1.toNat % 4096 = 0 ∧
      start.toNat + 4096 ≤ start1.toNat ∧
      (∀ la : Word, start ≤ la → la < start1 → pteAt (vm1.pgdirs f) la = 0#32) ∧
      unmapLoop f stop (rounds + 1) start vm =
        if start1 ≠ 0#32 ∧ start1 < stop then unmapLoop f stop rounds start1 vm1 else vm1 := by
  have hs : start.toNat < stop.toNat := hlt
  have ht : stop.toNat ≤ 2147483648 := htop
  rcases hd : vm.pgdirs f (PDX start) with _ | table
  · -- no page table: the next directory entry
    have hadd : (start + PTSIZE).toNat = start.toNat + 4194304 := by
      rw [BitVec.toNat_add, BitVec.toNat_ofNat]
      omega
    have h1 : (ROUNDDOWN_2N (start + PTSIZE) PTSHIFT).toNat =
        (start.toNat + 4194304) / 4194304 * 4194304 := by
      rw [toNat_ROUNDDOWN_2N, hadd]
      rfl
    refine ⟨vm, ROUNDDOWN_2N (start + PTSIZE) PTSHIFT, Edit.refl f vm, Shrinks.refl f vm,
      by omega, by omega, ?_, ?_⟩
    · intro la hla hla'
      have hl : start.toNat ≤ la.toNat := hla
      have hl' : la.toNat < (ROUNDDOWN_2N (start + PTSIZE) PTSHIFT).toNat := hla'
      have hp : PDX la = PDX start := by
        rw [PDX_eq, PDX_eq]
        omega
      unfold pteAt
      rw [hp, hd]
    · rw [unmapLoop, hd]
  · have hadd : (start + PGSIZE).toNat = start.toNat + 4096 := by
      rw [BitVec.toNat_add, BitVec.toNat_ofNat]
      omega
    have hpage (la : Word) (hla : start ≤ la) (hla' : la < start + PGSIZE) : SamePage la start := by
      have hl : start.toNat ≤ la.toNat := hla
      have hl' : la.toNat < (start + PGSIZE).toNat := hla'
      rw [samePage_iff]
      omega
    by_cases hz : pteAt (vm.pgdirs f) start = 0#32
    · refine ⟨vm, start + PGSIZE, Edit.refl f vm, Shrinks.refl f vm, by omega, by omega, ?_, ?_⟩
      · intro la hla hla'
        rw [pteAt_samePage (hpage la hla hla'), hz]
      · rw [unmapLoop, hd]
        simp only [hz, ne_eq, not_true_eq_false, ↓reduceIte]
    · refine ⟨page_remove_pte vm f start, start + PGSIZE, page_remove_pte_edit vm f start,
        page_remove_pte_shrinks vm f start, by omega, by omega, ?_, ?_⟩
      · intro la hla hla'
        rw [pteAt_page_remove_pte, if_pos ⟨hpage la hla hla', hok start hz⟩]
      · rw [unmapLoop, hd]
        simp only [hz, ne_eq, not_false_eq_true, ↓reduceIte]

/-- The loop removes every entry of the range, with a flush if there was one. -/
theorem unmapLoop_spec {f : Nat} {stop : Word} (htop : stop ≤ USERTOP) :
    ∀ (rounds : Nat) (start : Word) (vm : Vm), start.toNat % 4096 = 0 → start < stop →
      stop.toNat ≤ start.toNat + 4096 * rounds → PtesOk (vm.pgdirs f) →
      Edit f vm (unmapLoop f stop rounds start vm) ∧
      Shrinks f vm (unmapLoop f stop rounds start vm) ∧
      ∀ la : Word, start ≤ la → la < stop →
        pteAt ((unmapLoop f stop rounds start vm).pgdirs f) la = 0#32 := by
  intro rounds
  induction rounds with
  | zero =>
    intro start vm _ hlt hr _
    have hs : start.toNat < stop.toNat := hlt
    omega
  | succ rounds ih =>
    intro start vm hal hlt hr hok
    obtain ⟨vm1, start1, he, hsh, hal1, hstep, hzero, heq⟩ :=
      unmapLoop_round rounds hal hlt htop hok
    rw [heq]
    by_cases hgo : start1 ≠ 0#32 ∧ start1 < stop
    · obtain ⟨he', hsh', hzero'⟩ := ih start1 vm1 hal1 hgo.2 (by omega) (hsh.ptesOk hok)
      rw [if_pos hgo]
      refine ⟨he.trans he', hsh.trans hsh', ?_⟩
      intro la hla hla'
      by_cases hl : la < start1
      · exact hsh'.zero (hzero la hla hl)
      · exact hzero' la (BitVec.not_lt.1 hl) hla'
    · rw [if_neg hgo]
      refine ⟨he, hsh, ?_⟩
      intro la hla hla'
      refine hzero la hla ?_
      have hne : start1 ≠ 0#32 := by
        rintro rfl
        simp at hstep
      have hns : ¬ start1 < stop := fun h => hgo ⟨hne, h⟩
      exact Nat.lt_of_lt_of_le hla' (BitVec.not_lt.1 hns)

theorem toNat_of_pageAligned {a : Word} (h : pageAligned a) : a.toNat % 4096 = 0 := by
  have h' := congrArg BitVec.toNat h
  rw [BitVec.toNat_umod] at h'
  exact h'

theorem unmap_range_spec {vm vm' : Vm} {f : Nat} {start stop : Word}
    (h : unmap_range vm f start stop = some vm') (hok : PtesOk (vm.pgdirs f)) :
    Edit f vm vm' ∧ Shrinks f vm vm' ∧
      ∀ la : Word, start ≤ la → la < stop → pteAt (vm'.pgdirs f) la = 0#32 := by
  unfold unmap_range at h
  split at h
  · next hc =>
    obtain ⟨hal, -, -, hlt, htop⟩ := hc
    obtain rfl := Option.some_inj.1 h
    have hstop : stop.toNat ≤ 2147483648 := htop
    have hrounds : stop.toNat ≤ start.toNat + 4096 * NPAGES :=
      le_trans hstop (le_trans (by decide) (Nat.le_add_left (4096 * NPAGES) _))
    exact unmapLoop_spec htop NPAGES start vm (toNat_of_pageAligned hal) hlt hrounds hok
  · cases h

/-! ## `exit_range` -/

theorem exitLoop_spec (f : Nat) (stop : Word) : ∀ (rounds : Nat) (start : Word) (vm : Vm),
    (∀ g, g ≠ f → (exitLoop f stop rounds start vm).pgdirs g = vm.pgdirs g) ∧
      (exitLoop f stop rounds start vm).current_pgdir = vm.current_pgdir ∧
      (exitLoop f stop rounds start vm).taken = vm.taken ∧
      (exitLoop f stop rounds start vm).tlb = vm.tlb ∧
      Shrinks f vm (exitLoop f stop rounds start vm) := by
  intro rounds
  induction rounds with
  | zero => exact fun start vm => ⟨fun _ _ => rfl, rfl, rfl, rfl, Shrinks.refl f vm⟩
  | succ rounds ih =>
    intro start vm
    obtain ⟨vm1, hvm1⟩ : ∃ vm1, vm1 =
        vm.setPgdir f fun i => if i = PDX start then none else vm.pgdirs f i := ⟨_, rfl⟩
    have hothers : ∀ g, g ≠ f → vm1.pgdirs g = vm.pgdirs g := by
      intro g hg
      rw [hvm1, pgdirs_setPgdir, if_neg hg]
    have hshrinks : Shrinks f vm vm1 := by
      intro la
      rw [hvm1, pgdirs_setPgdir, if_pos rfl]
      unfold pteAt
      by_cases hl : PDX la = PDX start
      · exact Or.inr (by simp only [if_pos hl])
      · exact Or.inl (by simp only [if_neg hl])
    have hsame : vm1.current_pgdir = vm.current_pgdir ∧ vm1.taken = vm.taken ∧
        vm1.tlb = vm.tlb := by
      rw [hvm1]
      exact ⟨rfl, rfl, rfl⟩
    unfold exitLoop
    simp only [← hvm1]
    split
    · obtain ⟨ho, hc, ht, htlb, hsh⟩ := ih (start + PTSIZE) vm1
      refine ⟨?_, hc.trans hsame.1, ht.trans hsame.2.1, htlb.trans hsame.2.2, hshrinks.trans hsh⟩
      intro g hg
      rw [ho g hg, hothers g hg]
    · exact ⟨hothers, hsame.1, hsame.2.1, hsame.2.2, hshrinks⟩

/-- With no entry left the page tables go without a flush. -/
theorem exit_range_spec {vm vm' : Vm} {f : Nat} {start stop : Word}
    (h : exit_range vm f start stop = some vm') (hz : ∀ la, pteAt (vm.pgdirs f) la = 0#32) :
    Edit f vm vm' ∧ ∀ la, pteAt (vm'.pgdirs f) la = 0#32 := by
  unfold exit_range at h
  split at h
  · obtain rfl := Option.some_inj.1 h
    obtain ⟨ho, hc, ht, htlb, hsh⟩ :=
      exitLoop_spec f stop NPAGES (ROUNDDOWN_2N start PTSHIFT) vm
    have hz' : ∀ la, pteAt ((exitLoop f stop NPAGES (ROUNDDOWN_2N start PTSHIFT) vm).pgdirs f) la =
        0#32 := fun la => hsh.zero (hz la)
    exact ⟨⟨ho, hc, ht, Or.inr ⟨htlb, fun la => (hz' la).trans (hz la).symm⟩⟩, hz'⟩
  · cases h

/-! ## `copy_range` -/

/-- An edit of `f` that may make entries present from `lo` up to `stop`. -/
structure Fills (f : Nat) (lo stop : Word) (vm vm' : Vm) : Prop where
  edit : Edit f vm vm'
  entries : ∀ la, pteAt (vm'.pgdirs f) la = pteAt (vm.pgdirs f) la ∨
    (lo ≤ la ∧ la < stop ∧ ptep_present (pteAt (vm'.pgdirs f) la) = true)

theorem Fills.refl (f : Nat) (lo stop : Word) (vm : Vm) : Fills f lo stop vm vm :=
  ⟨Edit.refl f vm, fun _ => Or.inl rfl⟩

theorem Fills.trans {f : Nat} {lo stop : Word} {vm vm' vm'' : Vm} (h : Fills f lo stop vm vm')
    (h' : Fills f lo stop vm' vm'') : Fills f lo stop vm vm'' := by
  refine ⟨h.edit.trans h'.edit, ?_⟩
  intro la
  rcases h'.entries la with he | hn
  · rw [he]
    exact h.entries la
  · exact Or.inr hn

theorem Fills.ptesOk {f : Nat} {lo stop : Word} {vm vm' : Vm} (h : Fills f lo stop vm vm')
    (hok : PtesOk (vm.pgdirs f)) : PtesOk (vm'.pgdirs f) := by
  intro la hla
  rcases h.entries la with he | ⟨-, -, hp⟩
  · rw [he] at hla ⊢
    exact hok la hla
  · exact hp

theorem ptep_present_eq (pte : pte_t) : ptep_present pte = getElem pte 0 bit0_lt := by
  have hp : PTE_P = BitVec.twoPow 32 0 := rfl
  unfold ptep_present
  rw [hp, BitVec.and_twoPow, BitVec.getLsbD_eq_getElem (by decide)]
  cases pte[0]
  · rfl
  · rfl

theorem ptep_present_insert (pa perm : Word) : ptep_present (pa ||| PTE_P ||| perm) = true := by
  rw [ptep_present_eq]
  simp

/-- An insert at a page of the range fills the range. -/
theorem page_insert_fills {vm vm' : Vm} {f : Nat} {page : BitVec 20} {la perm lo stop : Word}
    {create : Bool} (h : page_insert vm f page la perm create = some vm')
    (hal : la.toNat % 4096 = 0) (hstop : stop.toNat % 4096 = 0) (hlo : lo ≤ la) (hlt : la < stop) :
    Fills f lo stop vm vm' := by
  obtain ⟨he, -, hp⟩ := page_insert_spec h
  refine ⟨he, ?_⟩
  intro la'
  rw [hp la']
  by_cases hl : SamePage la' la
  · have hl' := (samePage_iff la' la).1 hl
    have h1 : lo.toNat ≤ la.toNat := hlo
    have h2 : la.toNat < stop.toNat := hlt
    have h3 : lo.toNat ≤ la'.toNat := by omega
    have h4 : la'.toNat < stop.toNat := by omega
    rw [if_pos hl]
    exact Or.inr ⟨h3, h4, ptep_present_insert _ _⟩
  · rw [if_neg hl]
    exact Or.inl rfl

theorem copyPage_fills {a : CopyPages} {vm vm' : Vm} {dst : Nat} {start lo stop : Word}
    {pte : pte_t} {ok : Bool} (h : copyPage a vm dst start pte = some (vm', ok))
    (hal : start.toNat % 4096 = 0) (hstop : stop.toNat % 4096 = 0) (hlo : lo ≤ start)
    (hlt : start < stop) : Fills dst lo stop vm vm' := by
  unfold copyPage at h
  split at h
  · simp only [Option.some_inj, Prod.mk.injEq] at h
    obtain ⟨rfl, -⟩ := h
    exact Fills.refl dst lo stop _
  · next pd hg =>
    split at h
    · cases h
    · next page _ =>
      obtain ⟨vm2, hi, heq⟩ := Option.map_eq_some_iff.1 h
      rw [Prod.mk.injEq] at heq
      obtain ⟨rfl, -⟩ := heq
      have hf := page_insert_fills hi hal hstop hlo hlt
      -- the new page table holds zeros
      have hpd : Fills dst lo stop vm (vm.setPgdir dst pd) := by
        refine ⟨⟨?_, rfl, rfl, Or.inr ⟨rfl, ?_⟩⟩, ?_⟩
        · intro g hne
          rw [pgdirs_setPgdir, if_neg hne]
        · intro la
          rw [pgdirs_setPgdir, if_pos rfl, pteAt_get_pte hg]
        · intro la
          rw [pgdirs_setPgdir, if_pos rfl, pteAt_get_pte hg]
          exact Or.inl rfl
      exact hpd.trans hf

theorem copyLoop_fills {a : CopyPages} {dst src : Nat} {lo stop : Word}
    (hstop : stop.toNat % 4096 = 0) (htop : stop ≤ USERTOP) :
    ∀ (rounds : Nat) (start : Word) (vm vm' : Vm) (ok : Bool),
      copyLoop a dst src stop rounds start vm = some (vm', ok) → start.toNat % 4096 = 0 →
      lo ≤ start → start < stop → Fills dst lo stop vm vm' := by
  intro rounds
  induction rounds with
  | zero =>
    intro start vm vm' ok h _ _ _
    simp only [copyLoop, Option.some_inj, Prod.mk.injEq] at h
    obtain ⟨rfl, -⟩ := h
    exact Fills.refl dst lo stop vm
  | succ rounds ih =>
    intro start vm vm' ok h hal hlo hlt
    have h1 : lo.toNat ≤ start.toNat := hlo
    have h2 : start.toNat < stop.toNat := hlt
    have h3 : stop.toNat ≤ 2147483648 := htop
    -- the next address is aligned and not below
    have hnext (d : Word) (hd : d.toNat ≤ 4194304) (start1 : Word)
        (hs : start1.toNat = (start.toNat + d.toNat) / 4096 * 4096) (hd' : d.toNat % 4096 = 0) :
        start1.toNat % 4096 = 0 ∧ lo ≤ start1 := by
      have hle : lo.toNat ≤ start1.toNat := by omega
      exact ⟨by omega, hle⟩
    have hadd (d : Word) (hd : d.toNat ≤ 4194304) : (start + d).toNat = start.toNat + d.toNat := by
      rw [BitVec.toNat_add]
      omega
    unfold copyLoop at h
    split at h
    · have hs : (ROUNDDOWN_2N (start + PTSIZE) PGSHIFT).toNat =
          (start.toNat + PTSIZE.toNat) / 4096 * 4096 := by
        rw [toNat_ROUNDDOWN_2N, hadd PTSIZE (by decide)]
        rfl
      obtain ⟨hal', hlo'⟩ := hnext PTSIZE (by decide) _ hs (by decide)
      simp only at h
      split at h
      · next hgo => exact ih _ vm vm' ok h hal' hlo' hgo.2
      · simp only [Option.some_inj, Prod.mk.injEq] at h
        obtain ⟨rfl, -⟩ := h
        exact Fills.refl dst lo stop _
    · simp only at h
      have hpage : ∀ vm1 ok1,
          (if ptep_present (pteAt (vm.pgdirs src) start) then
            copyPage a vm dst start (pteAt (vm.pgdirs src) start) else some (vm, true)) =
            some (vm1, ok1) → Fills dst lo stop vm vm1 := by
        intro vm1 ok1 hv
        split at hv
        · exact copyPage_fills hv hal hstop hlo hlt
        · simp only [Option.some_inj, Prod.mk.injEq] at hv
          obtain ⟨rfl, -⟩ := hv
          exact Fills.refl dst lo stop _
      split at h
      · cases h
      · next vm1 hv =>
        simp only [Option.some_inj, Prod.mk.injEq] at h
        obtain ⟨rfl, -⟩ := h
        exact hpage _ _ hv
      · next vm1 hv =>
        have hf := hpage _ _ hv
        have hs : (start + PGSIZE).toNat = (start.toNat + PGSIZE.toNat) / 4096 * 4096 := by
          rw [hadd PGSIZE (by decide), BitVec.toNat_ofNat]
          omega
        obtain ⟨hal', hlo'⟩ := hnext PGSIZE (by decide) _ hs (by decide)
        split at h
        · next hgo => exact hf.trans (ih _ vm1 vm' ok h hal' hlo' hgo.2)
        · simp only [Option.some_inj, Prod.mk.injEq] at h
          obtain ⟨rfl, -⟩ := h
          exact hf

theorem copy_range_fills {a : CopyPages} {vm vm' : Vm} {dst src : Nat} {start stop : Word}
    {ok : Bool} (h : copy_range a vm dst src start stop = some (vm', ok)) :
    Fills dst start stop vm vm' := by
  unfold copy_range at h
  split at h
  · next hc =>
    obtain ⟨hal, hal', -, hlt, htop⟩ := hc
    exact copyLoop_fills (toNat_of_pageAligned hal') htop NPAGES start vm vm' ok h
      (toNat_of_pageAligned hal) (BitVec.le_refl start) hlt
  · cases h

end nehcpu.kernel
