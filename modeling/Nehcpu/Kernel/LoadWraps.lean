-- A segment that wraps is never loaded: no part of `load_icode` maps a page at the lowest addresses.
-- So `load_icode` loads its segments just if none wraps.
import Nehcpu.Kernel.LoadProgram

namespace nehcpu.kernel.frames

open cpu refcount Function lanes

/-! ## The lowest page table -/

/-- The directory has no page table for the lowest addresses. -/
def Low (d : Nat) (s : Frames) : Prop := s.table d 0 = none

section

variable {A : Allocator} {s s' : Frames} {d : Nat} {la perm : Word}

theorem Low.of_pgdirs (h : Low d s) (hp : s'.pgdirs = s.pgdirs) : Low d s' := by
  unfold Low Frames.table
  rw [hp]
  exact h

theorem page_remove_pte_pgdirs (s : Frames) (ptep : PtePtr) :
    (page_remove_pte s ptep).pgdirs = s.pgdirs := by
  unfold page_remove_pte
  simp only
  split
  · split
    · rfl
    · rfl
  · rfl

theorem PDX_pos (h : 0x400000 ≤ la.toNat) : PDX la ≠ 0 := by
  have hlt := la.isLt
  rw [PDX_eq]
  omega

theorem get_pte_low {r : Option PtePtr} (h : Low d s) (hla : PDX la ≠ 0) {create : Bool}
    (hg : get_pte A s d la create = (r, s')) : Low d s' := by
  rcases get_pte_cases A s d la create with ⟨t, -, he⟩ | ⟨-, tick, he⟩ | ⟨-, -, t, -, he⟩
  · rw [hg] at he
    obtain ⟨-, rfl⟩ := Prod.mk.inj he
    exact h
  · rw [hg] at he
    obtain ⟨-, rfl⟩ := Prod.mk.inj he
    exact h
  · rw [hg] at he
    obtain ⟨-, rfl⟩ := Prod.mk.inj he
    unfold Low
    rw [table_newTable, if_neg fun hc => hla hc.2.symm]
    exact h

theorem page_insert_low {page : Page} {ok : Bool} (h : Low d s) (hla : PDX la ≠ 0)
    (hi : page_insert A s d page la perm = (ok, s')) : Low d s' := by
  unfold page_insert at hi
  rcases hg : get_pte A s d la true with ⟨r, s1⟩
  have h1 := get_pte_low h hla hg
  rw [hg] at hi
  cases r with
  | none =>
    obtain ⟨-, rfl⟩ := Prod.mk.inj hi
    exact h1
  | some ptep =>
    obtain ⟨-, rfl⟩ := Prod.mk.inj hi
    refine h1.of_pgdirs ?_
    show (if _ then _ else _ : Frames).pgdirs = s1.pgdirs
    split
    · split
      · rfl
      · exact page_remove_pte_pgdirs _ _
    · rfl

theorem pgdir_alloc_page_low {r : Option Page} (h : Low d s) (hla : PDX la ≠ 0)
    (ha : pgdir_alloc_page A s d la perm = (r, s')) : Low d s' := by
  unfold pgdir_alloc_page at ha
  rcases alloc_page_cases A s with he | ⟨page, -, he⟩
  · rw [he] at ha
    obtain ⟨-, rfl⟩ := Prod.mk.inj ha
    exact h
  · rw [he] at ha
    simp only at ha
    have h1 : Low d (s.taken page) := h
    rcases hi : page_insert A (s.taken page) d page la perm with ⟨ok, s2⟩
    have h2 := page_insert_low h1 hla hi
    rw [hi] at ha
    cases ok with
    | false =>
      obtain ⟨-, rfl⟩ := Prod.mk.inj ha
      exact h2
    | true =>
      obtain ⟨-, rfl⟩ := Prod.mk.inj ha
      exact h2

theorem putBytes_low {page : Page} {off : Nat} {bs : List Byte} (h : Low d s) :
    Low d (s.putBytes page off bs) := h.of_pgdirs (putBytes_rest s page off bs).2.1

theorem Low.unmapped (h : Low d s) {a : Word} (ha : PDX a = 0) : s.userByte d a = none := by
  unfold Frames.userByte Frames.pte
  rw [ha, show s.table d 0 = none from h, entryPage_zero]
  rfl

end
/-! ## The loops -/

/-- Between the rounds: the page is at or behind the first address that is left. -/
structure Round (start la stop : Nat) : Prop where
  laA : la % 4096 = 0
  high : 0x400000 ≤ la
  page : (la ≤ start ∧ start < la + 4096) ∨ (start < la ∧ stop ≤ start)

section

variable {A : Allocator} {F : File} {d : Nat} {perm : Word}

/-- One round. Only in the last page of all the addresses begin anew. -/
theorem Round.next {startW laW stopW : Word} (h : Round startW.toNat laW.toNat stopW.toNat)
    (hlt : startW < stopW) (htop : stopW.toNat ≤ 0xFFFFF000) :
    PDX laW ≠ 0 ∧
      Round (startW + partSize (startW - laW) (laW + PGSIZE) stopW).toNat (laW + PGSIZE).toNat
        stopW.toNat := by
  obtain ⟨hlaA, hhigh, hpage⟩ := h
  have hlt' : startW.toNat < stopW.toNat := hlt
  obtain ⟨hle, hin⟩ := hpage.resolve_right fun hc => by omega
  have hpg : PGSIZE.toNat = 4096 := rfl
  have hoff : (startW - laW).toNat = startW.toNat - laW.toNat := BitVec.toNat_sub_of_le hle
  have hadd : (laW + PGSIZE).toNat = laW.toNat + 4096 := by
    rw [BitVec.toNat_add, hpg]
    omega
  have hsize := toNat_partSize (startW - laW) (laW + PGSIZE) stopW (by omega) (by omega) hlt'
  have hstart : (startW + partSize (startW - laW) (laW + PGSIZE) stopW).toNat =
      startW.toNat + (partSize (startW - laW) (laW + PGSIZE) stopW).toNat := by
    rw [BitVec.toNat_add]
    omega
  refine ⟨PDX_pos hhigh, ?_, ?_, ?_⟩
  · omega
  · omega
  · omega

/-- A file part that ends in the last page of all never comes to its end. -/
theorem fileLoop_endless {stopW : Word} (hstop : 0xFFFFF000 < stopW.toNat) :
    ∀ (rounds : Nat) (startW laW offset : Word) (prev : Option Page) (s : Loader),
      laW.toNat % 4096 = 0 → laW ≤ startW → startW.toNat < laW.toNat + 4096 →
      startW.toNat ≤ 0xFFFFF000 →
      ∀ r, fileLoop A F perm stopW rounds startW laW offset prev s ≠ some (.next r) := by
  intro rounds
  induction rounds with
  | zero =>
    intro startW laW offset prev s _ _ _ _ r he
    cases he
  | succ rounds ih =>
    intro startW laW offset prev s hlaA hle hin hfirst r
    have hle' : laW.toNat ≤ startW.toNat := hle
    have hpg : PGSIZE.toNat = 4096 := rfl
    have hlaL := laW.isLt
    have hlt : startW < stopW := by
      show startW.toNat < stopW.toNat
      omega
    have hadd : (laW + PGSIZE).toNat % 4096 = 0 ∧ (laW + PGSIZE).toNat ≤ 0xFFFFF000 := by
      rw [BitVec.toNat_add, hpg]
      omega
    have hsize : partSize (startW - laW) (laW + PGSIZE) stopW = PGSIZE - (startW - laW) := by
      unfold partSize
      rw [if_neg]
      apply BitVec.not_lt.2
      show (laW + PGSIZE).toNat ≤ stopW.toNat
      omega
    have hstart : startW + (PGSIZE - (startW - laW)) = laW + PGSIZE := by
      apply BitVec.eq_of_toNat_eq
      have hoff : (startW - laW).toNat = startW.toNat - laW.toNat := BitVec.toNat_sub_of_le hle
      have hrest : (PGSIZE - (startW - laW)).toNat = 4096 - (startW - laW).toNat := by
        rw [BitVec.toNat_sub_of_le (by show (startW - laW).toNat ≤ 4096; omega), hpg]
      have hsum : startW.toNat + (4096 - (startW.toNat - laW.toNat)) = laW.toNat + 4096 := by omega
      rw [BitVec.toNat_add, BitVec.toNat_add, hrest, hoff, hpg, hsum]
    unfold fileLoop
    rw [if_pos hlt]
    rcases pgdir_alloc_page A s.pages s.mm.pgdir laW perm with ⟨_ | page, frames⟩
    · intro he
      cases he
    · simp only [hsize, hstart]
      split
      · intro he
        cases he
      · refine ih _ _ _ _ _ hadd.1 (BitVec.le_refl _) ?_ hadd.2 r
        omega

theorem fileLoop_low {stopW : Word} :
    ∀ (rounds : Nat) (startW laW offset : Word) (prev : Option Page) (s : Loader)
      {start' la' : Word} {page' : Option Page} {s' : Loader}, stopW.toNat ≤ 0xFFFFF000 →
      Round startW.toNat laW.toNat stopW.toNat → s.mm.pgdir = d → Low d s.pages →
      fileLoop A F perm stopW rounds startW laW offset prev s =
        some (.next (start', la', page', s')) →
      Low d s'.pages ∧ s'.mm = s.mm ∧ Round start'.toNat la'.toNat stopW.toNat ∧
        stopW.toNat ≤ start'.toNat := by
  intro rounds
  induction rounds with
  | zero =>
    intro startW laW offset prev s start' la' page' s' _ _ _ _ he
    cases he
  | succ rounds ih =>
    intro startW laW offset prev s start' la' page' s' htop hr hd h he
    unfold fileLoop at he
    split at he
    · next hlt =>
      obtain ⟨hpdx, hr'⟩ := hr.next hlt htop
      rcases ha : pgdir_alloc_page A s.pages s.mm.pgdir laW perm with ⟨_ | page, frames⟩
      · rw [ha] at he
        cases he
      · rw [ha] at he
        rw [hd] at ha
        have h1 := pgdir_alloc_page_low h hpdx ha
        simp only at he
        split at he
        · cases he
        · have hnext := fun hd hlow => ih _ _ _ _ _ htop hr' hd hlow he
          exact hnext hd (putBytes_low h1)
    · next hge =>
      simp only [Option.some.injEq, Part.next.injEq, Prod.mk.injEq] at he
      obtain ⟨rfl, rfl, -, rfl⟩ := he
      exact ⟨h, rfl, hr, BitVec.not_lt.1 hge⟩

theorem zeroLoop_low {stopW : Word} :
    ∀ (rounds : Nat) (startW laW : Word) (prev : Option Page) (s : Loader)
      {page' : Option Page} {s' : Loader}, stopW.toNat ≤ 0xFFFFF000 →
      Round startW.toNat laW.toNat stopW.toNat → s.mm.pgdir = d → Low d s.pages →
      zeroLoop A perm stopW rounds startW laW prev s = some (.next (page', s')) →
      Low d s'.pages ∧ s'.mm = s.mm := by
  intro rounds
  induction rounds with
  | zero =>
    intro startW laW prev s page' s' _ _ _ _ he
    cases he
  | succ rounds ih =>
    intro startW laW prev s page' s' htop hr hd h he
    unfold zeroLoop at he
    split at he
    · next hlt =>
      obtain ⟨hpdx, hr'⟩ := hr.next hlt htop
      rcases ha : pgdir_alloc_page A s.pages s.mm.pgdir laW perm with ⟨_ | page, frames⟩
      · rw [ha] at he
        cases he
      · rw [ha] at he
        rw [hd] at ha
        have h1 := pgdir_alloc_page_low h hpdx ha
        simp only at he
        obtain ⟨zeros, hz⟩ : ∃ zeros, zeros =
            List.replicate (partSize (startW - laW) (laW + PGSIZE) stopW).toNat 0#8 := ⟨_, rfl⟩
        rw [← hz] at he
        have hnext := fun hd hlow => ih _ _ _ _ htop hr' hd hlow he
        exact hnext hd (putBytes_low h1)
    · simp only [Option.some.injEq, Part.next.injEq, Prod.mk.injEq] at he
      obtain ⟨-, rfl⟩ := he
      exact ⟨h, rfl⟩

/-- After the assertion the next address is that of the next page, or the segment is through. -/
theorem clear_bss_low {startW laW stopW fileEnd : Word} {prev page' : Option Page} {s s' : Loader}
    (htop : stopW.toNat ≤ 0xFFFFF000) (hr : Round startW.toNat laW.toNat fileEnd.toNat)
    (hd : s.mm.pgdir = d) (h : Low d s.pages)
    (he : clear_bss A perm stopW startW laW prev s = some (.next (page', s'))) :
    Low d s'.pages ∧ s'.mm = s.mm := by
  obtain ⟨hlaA, hhigh, hpage⟩ := hr
  unfold clear_bss at he
  split at he
  · split at he
    · simp only [Option.some.injEq, Part.next.injEq, Prod.mk.injEq] at he
      obtain ⟨-, rfl⟩ := he
      exact ⟨h, rfl⟩
    · rcases hc : clearPart stopW startW laW prev s with _ | ⟨start1, s1⟩
      · rw [hc] at he
        cases he
      · rw [hc] at he
        unfold clearPart at hc
        simp only at hc
        cases prev with
        | none => cases hc
        | some page =>
          simp only at hc
          split at hc
          · next hassert =>
            simp only [Option.some.injEq, Prod.mk.injEq] at hc
            obtain ⟨hstart, rfl⟩ := hc
            rw [hstart] at hassert
            have hr : Round start1.toNat laW.toNat stopW.toNat := by
              refine ⟨hlaA, hhigh, ?_⟩
              rcases hassert with ⟨hlt, he1⟩ | ⟨hle, he1⟩
              · right
                rw [he1]
                exact ⟨hlt, le_rfl⟩
              · left
                rw [he1]
                omega
            have hnext := fun hd hlow =>
              zeroLoop_low (A := A) (d := d) _ _ _ _ _ htop hr hd hlow he
            exact hnext hd (putBytes_low h)
          · cases hc
  · next hge =>
    have hge' : laW.toNat ≤ startW.toNat := BitVec.not_lt.1 hge
    refine zeroLoop_low _ _ _ _ _ htop ⟨hlaA, hhigh, ?_⟩ hd h he
    omega

end
/-! ## The parts of `load_icode` -/

/-- The areas are those of user memory, and the lowest addresses have no page table. -/
structure LowLoad (d : Nat) (s : Loader) : Prop where
  pgdir : s.mm.pgdir = d
  list : ListOk s.mm
  areas : ∀ vma ∈ s.mm.mmap_list, VmaOk vma
  low : Low d s.pages

section

variable {A : Allocator} {F : File} {d : Nat} {s s' : Loader}

theorem map_area_low {addr len vm_flags : Word} (h : LowLoad d s)
    (he : map_area A addr len vm_flags s = some (.next s')) :
    LowLoad d s' ∧
      USER_ACCESS (mappedArea addr len vm_flags).vm_start (mappedArea addr len vm_flags).vm_end := by
  unfold map_area at he
  rcases mm_map_ends h.list addr len vm_flags (A.memory s.pages.tick) with
    ⟨-, hm⟩ | ⟨-, -, hm⟩ | ⟨hu, -, -, list, hperm, hm⟩
  · rw [hm] at he
    cases he
  · rw [hm] at he
    cases he
  · obtain ⟨mm', ok, hm', hok⟩ := mm_map_ok h.list addr len vm_flags (A.memory s.pages.tick)
    rw [hm, Option.some_inj, Prod.mk.injEq] at hm'
    obtain ⟨rfl, -⟩ := hm'
    rw [hm] at he
    simp only [if_true, Option.some.injEq, Part.next.injEq] at he
    have hsame := SameAreas.find_vma h.list (mappedArea addr len vm_flags).vm_start
    subst he
    refine ⟨⟨hsame.pgdir.trans h.pgdir, hok, ?_, h.low⟩, hu⟩
    intro w hw
    rcases List.mem_cons.1 (hperm.mem_iff.1 hw) with rfl | hw
    · exact ⟨pageAligned_ROUNDDOWN addr, pageAligned_ROUNDDOWN _, hu⟩
    · exact h.areas w hw

/-- The end of an area that is taken, as it is computed, lies in user memory. -/
theorem end_le_top {addr len vm_flags : Word}
    (hu : USER_ACCESS (mappedArea addr len vm_flags).vm_start (mappedArea addr len vm_flags).vm_end) :
    (addr + len).toNat ≤ 0x80000000 := by
  have hhi := mappedArea_hi addr len vm_flags
  have htop : (mappedArea addr len vm_flags).hi ≤ 0x80000000 := hu.2.2
  have hlt : (mappedArea addr len vm_flags).lo < (mappedArea addr len vm_flags).hi := hu.2.1
  rw [BitVec.toNat_add]
  omega

theorem load_segment_low {ph : Proghdr} {prev page' : Option Page} (h : LowLoad d s)
    (he : load_segment A F ph prev s = some (.next (page', s'))) :
    LowLoad d s' ∧ ph.p_filesz ≤ ph.p_memsz ∧
      USER_ACCESS (segArea ph).vm_start (segArea ph).vm_end := by
  unfold load_segment at he
  split at he
  · cases he
  next hsz =>
  rcases hm : map_area A ph.p_va ph.p_memsz (segFlags ph) s with _ | ⟨⟨s1⟩ | ⟨ret, s1⟩⟩
  · rw [hm] at he
    cases he
  · rw [hm] at he
    simp only at he
    obtain ⟨h1, hu⟩ := map_area_low h hm
    have hend := end_le_top hu
    have hlo : (segArea ph).lo = pageOf ph.p_va := mappedArea_lo _ _ _
    have hbase : 0x10000000 ≤ (segArea ph).lo := hu.1
    have hva : (segArea ph).lo < (segArea ph).hi := hu.2.1
    have hhi : (segArea ph).hi ≤ 0x80000000 := hu.2.2
    have hla : (ROUNDDOWN_2N ph.p_va PGSHIFT).toNat = pageOf ph.p_va := toNat_page _
    unfold pageOf at hla hlo
    have hr : Round ph.p_va.toNat (ROUNDDOWN_2N ph.p_va PGSHIFT).toNat
        (ph.p_va + ph.p_filesz).toNat := ⟨by omega, by omega, by omega⟩
    split at he
    · cases he
    · cases he
    next start la page s2 hf =>
    have htop : (ph.p_va + ph.p_filesz).toNat ≤ 0xFFFFF000 := by
      apply Nat.le_of_not_lt
      intro hlt
      refine fileLoop_endless hlt _ _ _ _ _ _ (by omega) ?_ (by omega) (by omega) _ hf
      show (ROUNDDOWN_2N ph.p_va PGSHIFT).toNat ≤ ph.p_va.toNat
      omega
    obtain ⟨h2, hmm, hr2, -⟩ := fileLoop_low _ _ _ _ _ _ htop hr h1.pgdir h1.low hf
    have hpg2 : s2.mm.pgdir = d := by
      rw [hmm]
      exact h1.pgdir
    obtain ⟨h3, hmm3⟩ := clear_bss_low (by omega) hr2 hpg2 h2 he
    refine ⟨⟨?_, ?_, ?_, h3⟩, BitVec.not_lt.1 hsz, hu⟩
    · rw [hmm3]
      exact hpg2
    · rw [hmm3, hmm]
      exact h1.list
    · rw [hmm3, hmm]
      exact h1.areas
  · rw [hm] at he
    cases he

/-- The headers that are loaded pass both tests. -/
theorem loadHeaders_low :
    ∀ (left : Nat) (prev : Option Page) (s : Loader), left ≤ F.elfhdr.e_phnum.toNat →
      LowLoad d s → loadHeaders A F F.elfhdr left prev s = some (.next s') →
      LowLoad d s' ∧ ∀ i, F.elfhdr.e_phnum.toNat - left ≤ i → Loadable F i →
        (F.proghdr i).p_filesz ≤ (F.proghdr i).p_memsz ∧
          USER_ACCESS (segArea (F.proghdr i)).vm_start (segArea (F.proghdr i)).vm_end := by
  intro left
  induction left with
  | zero =>
    intro prev s _ h he
    simp only [loadHeaders, Option.some.injEq, Part.next.injEq] at he
    subst he
    refine ⟨h, ?_⟩
    intro i hle hi
    have hlt := hi.1
    omega
  | succ left ih =>
    intro prev s hle h he
    obtain ⟨i, hi⟩ : ∃ i, i = F.elfhdr.e_phnum.toNat - (left + 1) := ⟨_, rfl⟩
    have hnext : F.elfhdr.e_phnum.toNat - left = i + 1 := by omega
    unfold loadHeaders at he
    simp only at he
    rw [← hi] at he ⊢
    obtain ⟨phoff, hphoff⟩ : ∃ phoff, phoff = F.elfhdr.e_phoff + PROGHDR_SIZE * BitVec.ofNat 32 i :=
      ⟨_, rfl⟩
    rw [← hphoff] at he
    rcases hread : load_icode_read F s.reads PROGHDR_SIZE phoff with ⟨ret, bs⟩
    rw [hread] at he
    simp only at he
    split at he
    · cases he
    next hret =>
    have hok := load_icode_read_ok F s.reads PROGHDR_SIZE phoff (by decide) (by rw [hread]; exact not_not.1 hret)
    rw [hread] at hok
    have hph : proghdr bs = F.proghdr i := by
      have hbs : bs = (List.range 32).map fun k => F.bytes (phoff.toNat + k) := hok.2
      rw [hbs, hphoff]
      rfl
    rw [hph] at he
    have h1 : LowLoad d { s with reads := s.reads + 1 } := ⟨h.pgdir, h.list, h.areas, h.low⟩
    split at he
    · next htype =>
      obtain ⟨h', hall⟩ := ih _ _ (by omega) h1 he
      refine ⟨h', ?_⟩
      intro j hj hjl
      rcases Nat.eq_or_lt_of_le hj with rfl | hlt
      · exact absurd hjl.2 htype
      · exact hall j (by omega) hjl
    · split at he
      · cases he
      · cases he
      · next page s1 hs =>
        obtain ⟨h2, hsz, hu⟩ := load_segment_low h1 hs
        obtain ⟨h', hall⟩ := ih _ _ (by omega) h2 he
        refine ⟨h', ?_⟩
        intro j hj hjl
        rcases Nat.eq_or_lt_of_le hj with rfl | hlt
        · exact ⟨hsz, hu⟩
        · exact hall j (by omega) hjl

theorem loadAreas_low (h : LowLoad d s) (he : loadAreas A F F.elfhdr s = some (.next s')) :
    LowLoad d s' ∧ ∀ i, Loadable F i → (F.proghdr i).p_filesz ≤ (F.proghdr i).p_memsz ∧
      USER_ACCESS (segArea (F.proghdr i)).vm_start (segArea (F.proghdr i)).vm_end := by
  unfold loadAreas at he
  split at he
  · cases he
  · cases he
  · next s1 hs =>
    obtain ⟨h1, hall⟩ := loadHeaders_low _ _ _ le_rfl h hs
    refine ⟨(map_area_low h1 he).1, ?_⟩
    intro i hi
    exact hall i (by omega) hi

theorem do_pgfault_low {error_code : Nat} {addr : Word} {frames frames' : Frames} {mm mm' : Mm}
    {ok : Bool} (hl : ListOk mm) (hok : ∀ vma ∈ mm.mmap_list, VmaOk vma) (hd : mm.pgdir = d)
    (h : Low d frames) (he : do_pgfault A frames mm error_code addr = (frames', mm', ok)) :
    Low d frames' ∧ ListOk mm' ∧ SameAreas mm mm' := by
  have hsame := SameAreas.find_vma hl addr
  have hl' := hl.find_vma addr
  unfold do_pgfault at he
  rcases hfind : nehcpu.kernel.find_vma mm addr with ⟨found, mm1⟩
  have hfind' : (nehcpu.kernel.find_vma mm addr).1 = found := by rw [hfind]
  rw [hfind] at he hsame hl'
  simp only at he hsame hl'
  cases found with
  | none =>
    simp only [Prod.mk.injEq] at he
    obtain ⟨rfl, rfl, -⟩ := he
    exact ⟨h, hl', hsame⟩
  | some vma =>
    simp only at he
    split at he
    · simp only [Prod.mk.injEq] at he
      obtain ⟨rfl, rfl, -⟩ := he
      exact ⟨h, hl', hsame⟩
    next hin =>
    rw [find_vma_eq hl] at hfind'
    have hu := (hok vma (List.mem_of_find?_eq_some hfind')).user
    have hbase : 0x10000000 ≤ vma.vm_start.toNat := hu.1
    have hlo : vma.vm_start.toNat ≤ addr.toNat := BitVec.not_lt.1 fun hc => hin (Or.inl hc)
    have hpdx : PDX (ROUNDDOWN_2N addr PGSHIFT) ≠ 0 := by
      apply PDX_pos
      rw [toNat_page]
      omega
    rw [hsame.pgdir, hd] at he
    rcases hg : get_pte A frames d (ROUNDDOWN_2N addr PGSHIFT) true with ⟨_ | ptep, s1⟩
    · rw [hg] at he
      simp only [Prod.mk.injEq] at he
      obtain ⟨rfl, rfl, -⟩ := he
      exact ⟨get_pte_low h hpdx hg, hl', hsame⟩
    · rw [hg] at he
      simp only at he
      have h1 := get_pte_low h hpdx hg
      split at he
      · rcases ha : pgdir_alloc_page A s1 d (ROUNDDOWN_2N addr PGSHIFT) (areaPerm vma.vm_flags) with
          ⟨_ | page, s2⟩
        · rw [ha] at he
          simp only [Prod.mk.injEq] at he
          obtain ⟨rfl, rfl, -⟩ := he
          exact ⟨pgdir_alloc_page_low h1 hpdx ha, hl', hsame⟩
        · rw [ha] at he
          simp only [Prod.mk.injEq] at he
          obtain ⟨rfl, rfl, -⟩ := he
          exact ⟨pgdir_alloc_page_low h1 hpdx ha, hl', hsame⟩
      · simp only [Prod.mk.injEq] at he
        obtain ⟨rfl, rfl, -⟩ := he
        exact ⟨h1, hl', hsame⟩

theorem storeByte_low {va : Word} {b : Byte} (h : LowLoad d s)
    (he : storeByte A va b s = some s') : LowLoad d s' := by
  unfold storeByte at he
  rcases hu : userPage A va s with _ | ⟨page, s1⟩
  · rw [hu] at he
    cases he
  rw [hu] at he
  obtain rfl := Option.some_inj.1 he
  have h1 : LowLoad d s1 := by
    unfold userPage at hu
    simp only at hu
    split at hu
    · split at hu
      · cases hu
      · next frames mm' hf =>
        simp only [Option.some.injEq, Prod.mk.injEq] at hu
        obtain ⟨-, rfl⟩ := hu
        obtain ⟨hlow, hl, hsame⟩ := do_pgfault_low h.list h.areas h.pgdir h.low hf
        refine ⟨hsame.pgdir.trans h.pgdir, hl, ?_, hlow⟩
        show ∀ vma ∈ mm'.mmap_list, VmaOk vma
        rw [hsame.mmap_list]
        exact h.areas
    · split at hu
      · simp only [Option.some.injEq, Prod.mk.injEq] at hu
        obtain ⟨-, rfl⟩ := hu
        exact h
      · cases hu
  exact ⟨h1.pgdir, h1.list, h1.areas, h1.low⟩

theorem storeAll_low {l : List (Word × Byte)} (h : LowLoad d s)
    (he : storeAll A l s = some s') : LowLoad d s' := by
  induction l generalizing s with
  | nil =>
    obtain rfl := Option.some_inj.1 he
    exact h
  | cons x l ih =>
    obtain ⟨va, b⟩ := x
    obtain ⟨s1, hs1, hrest⟩ := Option.bind_eq_some_iff.1 he
    exact ih (storeByte_low h hs1) hrest

end
/-! ## A segment that wraps -/

section

variable {A : Allocator} {F : File} {newdir : Option Nat} {status : Word}
  {kargv : List (List Byte)} {frames : Frames} {heap : Nat} {tf : trap.Trapframe} {s : Loader}

theorem cleanup_pgdir_fails {ret : Word} {fr : Frames} {mm : Mm} {n : Nat} :
    cleanup_pgdir ret fr mm n ≠ some (.runs tf s) := by
  intro hc
  unfold cleanup_pgdir at hc
  obtain ⟨n', -, hn⟩ := Option.map_eq_some_iff.1 hc
  cases hn

/-- What `load_icode` went through where the program runs. -/
theorem load_icode_runs
    (he : load_icode A F newdir status kargv frames heap = some (.runs tf s)) :
    ∃ d s1, loadAreas A F F.elfhdr
        ⟨setup_pgdir { frames with tick := frames.tick + 1 } d, mm_create d, heap + 1, 1⟩ =
          some (.next s1) ∧
      startProgram A F.elfhdr status kargv s1 = .runs tf s := by
  unfold load_icode at he
  split at he
  · cases he
  simp only at he
  cases newdir with
  | none =>
    obtain ⟨n', -, hn⟩ := Option.map_eq_some_iff.1 he
    cases hn
  | some d =>
    simp only at he
    rcases hread : load_icode_read F 0 ELFHDR_SIZE 0#32 with ⟨ret, bs⟩
    rw [hread] at he
    simp only at he
    split at he
    · exact absurd he cleanup_pgdir_fails
    next hret =>
    have hok := load_icode_read_ok F 0 ELFHDR_SIZE 0#32 (by decide) (by rw [hread]; exact not_not.1 hret)
    rw [hread] at hok
    have helf : _load_elfhdr bs = F.elfhdr := by
      have hbs : bs = (List.range 52).map fun k => F.bytes (0 + k) := hok.2
      simp only [Nat.zero_add] at hbs
      rw [hbs]
      rfl
    rw [helf] at he
    split at he
    · exact absurd he cleanup_pgdir_fails
    split at he
    · cases he
    · unfold cleanup_mmap at he
      obtain ⟨fr, -, hc⟩ := Option.bind_eq_some_iff.1 he
      exact absurd hc cleanup_pgdir_fails
    · next s1 hs1 => exact ⟨d, s1, hs1, Option.some_inj.1 he⟩

theorem load_icode_low
    (he : load_icode A F newdir status kargv frames heap = some (.runs tf s)) :
    ∃ d, LowLoad d s ∧ ∀ i, Loadable F i → (F.proghdr i).p_filesz ≤ (F.proghdr i).p_memsz ∧
      USER_ACCESS (segArea (F.proghdr i)).vm_start (segArea (F.proghdr i)).vm_end := by
  obtain ⟨d, s1, hs1, hs⟩ := load_icode_runs he
  have hlow : Low d (setup_pgdir { frames with tick := frames.tick + 1 } d) := by
    show entryPage (update frames.pgdirs d (fun _ => 0#32) d 0) = none
    rw [update_self, entryPage_zero]
  have hareas : ∀ vma ∈ (mm_create d).mmap_list, VmaOk vma := by
    intro vma hv
    cases hv
  obtain ⟨h1, htests⟩ := loadAreas_low ⟨rfl, ListOk.create d, hareas, hlow⟩ hs1
  refine ⟨d, ?_, htests⟩
  unfold startProgram at hs
  simp only at hs
  rw [storeArgs_eq] at hs
  split at hs
  · cases hs
  · next s2 hst =>
    obtain ⟨-, rfl⟩ := Loaded.runs.inj hs
    have h2 : LowLoad d { s1 with mm := { s1.mm with mm_count := s1.mm.mm_count + 1 } } :=
      ⟨h1.pgdir, ⟨h1.list.separated, h1.list.count, h1.list.cache⟩, h1.areas, h1.low⟩
    exact storeAll_low h2 hst

/-- The byte at address 0 is missing. -/
theorem not_loads_of_wraps {i : Nat}
    (he : load_icode A F newdir status kargv frames heap = some (.runs tf s))
    (hi : Loadable F i) (hw : Wraps (F.proghdr i)) :
    ¬ LoadsSegments F frames heap (some (.runs tf s)) := by
  intro hl
  obtain ⟨d, hlow, -⟩ := load_icode_low he
  obtain ⟨-, -, hsum⟩ := hw
  have hva := (F.proghdr i).p_va.isLt
  obtain ⟨k, hk⟩ : ∃ k, k = 2 ^ 32 - (F.proghdr i).p_va.toNat := ⟨_, rfl⟩
  have hbyte := (hl i hi).bytes k (by omega)
  have hzero : (F.proghdr i).p_va + BitVec.ofNat 32 k = 0#32 := by
    apply BitVec.eq_of_toNat_eq
    rw [BitVec.toNat_add, BitVec.toNat_ofNat]
    show _ = 0
    omega
  rw [hzero, hlow.pgdir, hlow.low.unmapped (by decide)] at hbyte
  cases hbyte

end

/-- A file of some words. -/
def fileOf (words : List Word) : File where
  bytes k := (words.flatMap wordBytes).getD k 0#8
  sysfile_seek _ offset := if offset.toNat < 2147483648 then 0#32 else -E_INVAL
  sysfile_read _ offset len :=
    let size := 4 * words.length
    let n := min len.toNat (size - offset.toNat)
    (BitVec.ofNat 32 n,
      (List.range n).map fun k => (words.flatMap wordBytes).getD (offset.toNat + k) 0#8)
  seek_pos := by
    intro _ offset h
    split at h
    · assumption
    · cases h
  read_length := by
    intro _ offset len
    simp only [List.length_map, List.length_range]
    omega
  read_all := by
    intro _ offset len hlen h
    have hn := congrArg BitVec.toNat h
    have hl := len.isLt
    rw [BitVec.toNat_ofNat] at hn
    have hmin : min len.toNat (4 * words.length - offset.toNat) = len.toNat := by omega
    simp only [hmin]

/-- A program of one segment. -/
def oneSegment (p_offset p_va p_filesz p_memsz p_flags : Word) : File :=
  fileOf [ELF_MAGIC, 0#32, 0#32, 0#32, 0#32, 0#32, p_va, 52#32, 0#32, 0#32, 0#32, 1#32, 0#32,
    ELF_PT_LOAD, p_offset, p_va, p_va, p_filesz, p_memsz, p_flags, 0x1000#32]

def emptyMemory : Frames := Frames.boot (fun _ _ => 0#32) (fun _ _ => 0#32) fun _ => true

/-- The magic number as data, and four zeros after it. -/
def smallSegment : File := oneSegment 0#32 0x10000FFC#32 4#32 8#32 (ELF_PF_R ||| ELF_PF_W)

/-- A segment of `2 ^ 32 - 1` bytes from `0x10000FFF` on, of which nothing is loaded. -/
def aroundSegment : File := oneSegment 0#32 0x10000FFF#32 0#32 0xFFFFFFFF#32 ELF_PF_R

/-- The program runs. -/
def running : Option Loaded → Bool
  | some (.runs _ _) => true
  | _ => false

end nehcpu.kernel.frames
