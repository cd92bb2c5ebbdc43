-- The three loops of `load_icode` over the pages of a segment: what stands in the memory when they
-- are through, byte for byte, and what is left when they give up.
import Mathlib.Data.List.GetD
import Nehcpu.Kernel.NewMemory

namespace nehcpu.kernel.frames

open cpu refcount Function

/-! ## What the program reads -/

section

variable {s s' : Frames} {d : Nat} {la perm : Word} {page t : Page}

theorem pte_samePage {a a' : Word} (h : SamePage a a') : s.pte d a = s.pte d a' := by
  unfold Frames.pte
  rw [h.1, h.2]

/-- The frame of another page is neither the new frame nor its page table. -/
theorem PageAdded.other (hs : Settled s) (hd : d ∈ s.dirs) (h : PageAdded d la perm page t s s')
    {a : Word} {p : Page} (hp : entryPage (s.pte d a) = some p) : p ≠ page ∧ p ≠ t := by
  obtain ⟨hpres, rfl⟩ := entryPage_eq_some.1 hp
  obtain ⟨hf, hn⟩ := hs.pte_mapped hd hpres
  constructor
  · rintro he
    rw [he, h.fresh] at hf
    cases hf
  · rintro he
    rcases h.tableFresh with ht | ⟨-, ht⟩
    · exact hn ⟨d, hd, _, PDX_lt la, he ▸ ht⟩
    · rw [he, ht] at hf
      cases hf

/-- The page that is filled, and the rest of the memory. -/
theorem PageAdded.userByte (hs : Settled s) (hd : d ∈ s.dirs) (hperm : perm < PGSIZE)
    (h : PageAdded d la perm page t s s') (off : Nat) (bs : List Byte) (a : Word) :
    (¬ SamePage a la → (s'.putBytes page off bs).userByte d a = s.userByte d a) ∧
      (SamePage a la → off ≤ a.toNat % 4096 → a.toNat % 4096 < off + bs.length →
        (s'.putBytes page off bs).userByte d a = some (bs.getD (a.toNat % 4096 - off) 0#8)) := by
  have hd' : d ∈ s'.dirs := by
    rw [h.dirs]
    exact hd
  have hpte := pte_putBytes h.notTable hd' off bs a
  unfold Frames.userByte
  rw [hpte, h.pte]
  constructor
  · intro hne
    rw [if_neg hne]
    rcases he : entryPage (s.pte d a) with _ | p
    · rfl
    · obtain ⟨h1, h2⟩ := h.other hs hd he
      rw [Option.map_some, Option.map_some, byte_putBytes, if_neg fun hc => h1 hc.1]
      unfold Frames.byte
      rw [h.mem p h2]
  · intro hsame hlo hhi
    rw [if_pos hsame, entryPage_insert page hperm, Option.map_some, byte_putBytes,
      if_pos ⟨rfl, hlo, hhi⟩]

end

/-- A frame is mapped at one page only. -/
theorem Building.only {s0 s : Frames} {d : Nat} {mm : Mm} (b : Building s0 d s mm) {a a' : Word}
    {p : Page} (ha : entryPage (s.pte d a) = some p) (ha' : entryPage (s.pte d a') = some p) :
    SamePage a a' := by
  by_contra hne
  have hcount : 2 ≤ s.count p := by
    refine Finset.one_lt_card.2 ⟨(d, PDX a, PTX a), ?_, (d, PDX a', PTX a'), ?_, ?_⟩
    · exact Finset.mem_filter.2 ⟨(mem_slots s _ _ _).2 ⟨b.dir, PDX_lt a, PTX_lt a⟩, by
        rw [maps_addr, ha]⟩
    · exact Finset.mem_filter.2 ⟨(mem_slots s _ _ _).2 ⟨b.dir, PDX_lt a', PTX_lt a'⟩, by
        rw [maps_addr, ha']⟩
    · intro heq
      simp only [Prod.mk.injEq, true_and] at heq
      exact hne heq
  have hu := b.settled.user (b.frame ha).2
  have href := (b.mapped a p ha).2.2
  omega

/-! ## The part of a segment that is there -/

/-- From `lo` up to `la` the pages of the area are mapped, the last of them to `page`; from `va` up
to `start` the bytes are those that are wanted; outside of the area all is as in `s1`. -/
structure Filled (s1 : Frames) (d lo hi : Nat) (perm : Word) (want : Nat → Byte) (va : Nat)
    (start la : Nat) (page : Option Page) (s : Frames) : Prop where
  mapped : ∀ a : Word, lo ≤ a.toNat → a.toNat < la →
    ∃ p, s.pte d a = page2pa p ||| PTE_P ||| perm
  last : lo < la → ∃ p, page = some p ∧
    ∀ a : Word, la - 4096 ≤ a.toNat → a.toNat < la → s.pte d a = page2pa p ||| PTE_P ||| perm
  rest : ∀ a : Word, la ≤ a.toNat → a.toNat < hi → s.pte d a = 0#32
  bytes : ∀ a : Word, va ≤ a.toNat → a.toNat < start → s.userByte d a = some (want a.toNat)
  outside : ∀ a : Word, ¬ (lo ≤ a.toNat ∧ a.toNat < hi) →
    s.pte d a = s1.pte d a ∧ s.userByte d a = s1.userByte d a

section

variable {s0 s1 s s' : Frames} {d lo hi va : Nat} {mm : Mm} {perm : Word} {want : Nat → Byte}
  {start la : Nat} {prev : Option Page}

theorem Filled.begin (h : ∀ a : Word, lo ≤ a.toNat → a.toNat < hi → s.pte d a = 0#32)
    (prev : Option Page) : Filled s d lo hi perm want va va lo prev s := by
  refine ⟨?_, fun hlt => absurd hlt (Nat.lt_irrefl lo), h, ?_, fun _ _ => ⟨rfl, rfl⟩⟩
  · intro a h1 h2
    omega
  · intro a h1 h2
    omega

/-- One page more, filled from `start` on. -/
theorem Filled.page {laW : Word} {p t : Page} {bs : List Byte} (off : Nat)
    (hs : Settled s) (hd : d ∈ s.dirs) (hperm : perm < PGSIZE)
    (h : Filled s1 d lo hi perm want va start laW.toNat prev s)
    (hla : laW.toNat % 4096 = 0) (hlo : lo ≤ laW.toNat) (hloA : lo % 4096 = 0)
    (hhi : laW.toNat < hi) (hhiA : hi % 4096 = 0)
    (hoff : laW.toNat + off = start) (hfirst : start = va ∨ off = 0)
    (hend : off + bs.length ≤ 4096)
    (hbs : ∀ j < bs.length, bs.getD j 0#8 = want (start + j))
    (hp : PageAdded d laW perm p t s s') :
    Filled s1 d lo hi perm want va (start + bs.length) (laW.toNat + 4096) (some p)
      (s'.putBytes p off bs) := by
  have hd' : d ∈ s'.dirs := by
    rw [hp.dirs]
    exact hd
  have hpte : ∀ a, (s'.putBytes p off bs).pte d a =
      if SamePage a laW then page2pa p ||| PTE_P ||| perm else s.pte d a := by
    intro a
    rw [pte_putBytes hp.notTable hd', hp.pte]
  have hsame : ∀ a : Word, SamePage a laW ↔ laW.toNat ≤ a.toNat ∧ a.toNat < laW.toNat + 4096 := by
    intro a
    rw [samePage_iff]
    omega
  have hbyte := hp.userByte hs hd hperm off bs
  refine ⟨?_, ?_, ?_, ?_, ?_⟩
  · intro a h1 h2
    rw [hpte]
    by_cases hsp : SamePage a laW
    · exact ⟨p, if_pos hsp⟩
    · rw [if_neg hsp]
      rw [hsame] at hsp
      exact h.mapped a h1 (by omega)
  · intro _
    refine ⟨p, rfl, ?_⟩
    intro a h1 h2
    rw [hpte, if_pos ((hsame a).2 (by omega))]
  · intro a h1 h2
    rw [hpte, if_neg fun hsp => by have := (hsame a).1 hsp; omega]
    exact h.rest a (by omega) h2
  · intro a h1 h2
    by_cases hsp : SamePage a laW
    · have hin := (hsame a).1 hsp
      have hge : start ≤ a.toNat := by omega
      have hmod : a.toNat % 4096 = a.toNat - laW.toNat := by omega
      have hat : start + (a.toNat % 4096 - off) = a.toNat := by omega
      rw [(hbyte a).2 hsp (by omega) (by omega), hbs _ (by omega), hat]
    · rw [(hbyte a).1 hsp]
      rw [hsame] at hsp
      exact h.bytes a h1 (by omega)
  · intro a hout
    have hsp : ¬ SamePage a laW := by
      rw [hsame]
      omega
    obtain ⟨h1, h2⟩ := h.outside a hout
    rw [hpte, if_neg hsp, (hbyte a).1 hsp]
    exact ⟨h1, h2⟩

/-- More bytes of the last page. -/
theorem Filled.more {p : Page} (bs : List Byte) (off : Nat) (b : Building s0 d s mm)
    (hperm : perm < PGSIZE) (h : Filled s1 d lo hi perm want va start la (some p) s)
    (hla : la % 4096 = 0) (hlo : lo < la) (hloA : lo % 4096 = 0) (hhi : la ≤ hi)
    (hhiA : hi % 4096 = 0) (htop : la ≤ 4294967296)
    (hoff : la - 4096 + off = start) (hend : off + bs.length ≤ 4096)
    (hbs : ∀ j < bs.length, bs.getD j 0#8 = want (start + j)) :
    Building s0 d (s.putBytes p off bs) mm ∧
      Filled s1 d lo hi perm want va (start + bs.length) la (some p) (s.putBytes p off bs) := by
  obtain ⟨p', he, hpage⟩ := h.last hlo
  obtain rfl := Option.some_inj.1 he
  have hent := entryPage_insert p hperm
  -- the address of the last page
  obtain ⟨la0, hla0⟩ : ∃ la0 : Word, la0.toNat = la - 4096 :=
    ⟨BitVec.ofNat 32 (la - 4096), by rw [BitVec.toNat_ofNat]; omega⟩
  have hmap : entryPage (s.pte d la0) = some p := by
    rw [hpage la0 (by omega) (by omega), hent]
  have hf := (b.mapped la0 p hmap).1
  have hn := (b.frame hmap).2
  have hpte := pte_putBytes hn b.dir off bs
  have hsame : ∀ a : Word, SamePage a la0 ↔ la - 4096 ≤ a.toNat ∧ a.toNat < la := by
    intro a
    rw [samePage_iff]
    omega
  have hbyte : ∀ a, ¬ (SamePage a la0 ∧ off ≤ a.toNat % 4096 ∧
      a.toNat % 4096 < off + bs.length) →
        (s.putBytes p off bs).userByte d a = s.userByte d a := by
    intro a hout
    unfold Frames.userByte
    rw [hpte]
    rcases hea : entryPage (s.pte d a) with _ | q
    · rfl
    · rw [Option.map_some, Option.map_some, byte_putBytes, if_neg]
      rintro ⟨rfl, hin⟩
      exact hout ⟨b.only hea hmap, hin⟩
  refine ⟨b.wrote hf hn off bs, ?_, ?_, ?_, ?_, ?_⟩
  · intro a h1 h2
    rw [hpte]
    exact h.mapped a h1 h2
  · intro _
    refine ⟨p, rfl, ?_⟩
    intro a h1 h2
    rw [hpte]
    exact hpage a h1 h2
  · intro a h1 h2
    rw [hpte]
    exact h.rest a h1 h2
  · intro a h1 h2
    by_cases hin : start ≤ a.toNat
    · have hmod : a.toNat % 4096 = a.toNat - (la - 4096) := by omega
      have hsp : SamePage a la0 := (hsame a).2 (by omega)
      have hat : start + (a.toNat % 4096 - off) = a.toNat := by omega
      unfold Frames.userByte
      rw [hpte, pte_samePage hsp, hmap, Option.map_some, byte_putBytes,
        if_pos ⟨rfl, by omega, by omega⟩, hbs _ (by omega), hat]
    · rw [hbyte a]
      · exact h.bytes a h1 (by omega)
      · rintro ⟨hsp, h3, h4⟩
        have := (hsame a).1 hsp
        omega
  · intro a hout
    obtain ⟨h1, h2⟩ := h.outside a hout
    rw [hpte, hbyte a]
    · exact ⟨h1, h2⟩
    · rintro ⟨hsp, -⟩
      have := (hsame a).1 hsp
      omega

end

/-! ## `load_icode_read` -/

theorem load_icode_read_length (F : File) (t : Nat) (len offset : Word) :
    (load_icode_read F t len offset).2.length ≤ len.toNat := by
  unfold load_icode_read
  simp only
  split
  · exact Nat.zero_le _
  · split
    · exact F.read_length
    · exact F.read_length

/-- A read that succeeds has all bytes from the offset on. -/
theorem load_icode_read_ok (F : File) (t : Nat) (len offset : Word) (hlen : len.toNat ≤ 4096)
    (h : (load_icode_read F t len offset).1 = 0#32) :
    offset.toNat < 2147483648 ∧ (load_icode_read F t len offset).2 =
      (List.range len.toNat).map fun k => F.bytes (offset.toNat + k) := by
  unfold load_icode_read at h ⊢
  simp only at h ⊢
  split at h
  · next hs => exact absurd h hs
  · next hs =>
    rw [if_neg hs]
    have hseek : F.sysfile_seek t offset = 0#32 := not_not.1 hs
    split at h
    · next hr =>
      exfalso
      split at h
      · next hm =>
        have hz : (F.sysfile_read t offset len).1 = 0#32 := h
        rw [hz] at hm
        cases hm
      · have hz : -1#32 = 0#32 := h
        cases hz
    · next hr =>
      rw [if_neg hr]
      exact ⟨F.seek_pos hseek, F.read_all hlen (not_not.1 hr)⟩

theorem getD_bytes (f : Nat → Byte) {n j : Nat} (hj : j < n) :
    ((List.range n).map f).getD j 0#8 = f j := by
  rw [List.getD_eq_getElem?_getD, List.getElem?_map, List.getElem?_range hj]
  rfl

/-! ## The loops -/

/-- Between the parts of `load_icode`: the memory is being made, with a structure for each area
and one for itself. -/
structure Held (s0 : Frames) (h0 d : Nat) (s : Loader) : Prop where
  building : Building s0 d s.pages s.mm
  heap : s.heap = h0 + (s.mm.mmap_list.length + 1)

/-- A jump to `bad_cleanup_mmap`. -/
def Jumps {α : Type} (s0 : Frames) (h0 d : Nat) (r : Option (Part α)) : Prop :=
  ∃ ret s, r = some (.bad_cleanup_mmap ret s) ∧ ret ≠ 0#32 ∧ Held s0 h0 d s

/-- The place of a segment in the area that was made for it. -/
structure Place (mm : Mm) (lo hi va : Nat) : Prop where
  loA : lo % 4096 = 0
  hiA : hi % 4096 = 0
  top : hi ≤ 2147483648
  lo_le : lo ≤ va
  lt : va < lo + 4096
  area : ∀ a : Word, lo ≤ a.toNat → a.toNat < hi → InVmas mm.mmap_list a

/-- Where the loops are: at a page, from `va` or from its start on, or behind the last byte. -/
structure At (va start la stop : Nat) : Prop where
  laA : la % 4096 = 0
  le : start ≤ stop
  page : (la ≤ start ∧ start < la + 4096 ∧ (start = va ∨ start = la)) ∨
    (start = stop ∧ start < la ∧ la < start + 4096)

theorem toNat_partSize (off la stop : Word) {start : Nat} (hoff : off.toNat < 4096)
    (hla : la.toNat + off.toNat = start + 4096) (hlt : start < stop.toNat) :
    (partSize off la stop).toNat = min (4096 - off.toNat) (stop.toNat - start) := by
  have hpg : PGSIZE.toNat = 4096 := rfl
  have hsub : (PGSIZE - off).toNat = 4096 - off.toNat := by
    rw [BitVec.toNat_sub_of_le (by show off.toNat ≤ 4096; omega), hpg]
  unfold partSize
  simp only
  by_cases hst : stop < la
  · have hst' : stop.toNat < la.toNat := hst
    have hd : (la - stop).toNat = la.toNat - stop.toNat :=
      BitVec.toNat_sub_of_le (Nat.le_of_lt hst')
    rw [if_pos hst, BitVec.toNat_sub_of_le (by show (la - stop).toNat ≤ (PGSIZE - off).toNat; omega),
      hsub, hd]
    omega
  · have hst' : la.toNat ≤ stop.toNat := BitVec.not_lt.1 hst
    rw [if_neg hst, hsub]
    omega

theorem areaPerm_lt (vm_flags : Word) : areaPerm vm_flags < PGSIZE := by
  unfold areaPerm
  split
  · decide
  · decide

section

variable {A : Allocator} {F : File} {s0 s1 : Frames} {h0 d lo hi va : Nat} {mm : Mm}
  {perm : Word} {want : Nat → Byte}

/-- One round of the loops: the next page, from `start` on. -/
theorem page_round {startW laW stopW : Word} {prev : Option Page} {s : Loader} (hmm : s.mm = mm)
    (hpl : Place mm lo hi va) (hperm : perm < PGSIZE) (hstop : stopW.toNat ≤ hi)
    (h : Held s0 h0 d s) (hf : Filled s1 d lo hi perm want va startW.toNat laW.toNat prev s.pages)
    (hat : At va startW.toNat laW.toNat stopW.toNat) (hla : lo ≤ laW.toNat)
    (hlt : startW < stopW) :
    (∃ tick, pgdir_alloc_page A s.pages s.mm.pgdir laW perm =
      (none, { s.pages with tick := tick })) ∨
    ∃ page frames, pgdir_alloc_page A s.pages s.mm.pgdir laW perm = (some page, frames) ∧
      (startW - laW).toNat = startW.toNat - laW.toNat ∧
      (laW + PGSIZE).toNat = laW.toNat + 4096 ∧
      (partSize (startW - laW) (laW + PGSIZE) stopW).toNat =
        min (4096 - (startW.toNat - laW.toNat)) (stopW.toNat - startW.toNat) ∧
      (∀ bs, Building s0 d (frames.putBytes page (startW - laW).toNat bs) mm) ∧
      ∀ bs : List Byte, bs.length = (partSize (startW - laW) (laW + PGSIZE) stopW).toNat →
        (∀ j < bs.length, bs.getD j 0#8 = want (startW.toNat + j)) →
        Filled s1 d lo hi perm want va (startW.toNat + bs.length) (laW + PGSIZE).toNat (some page)
          (frames.putBytes page (startW - laW).toNat bs) ∧
        At va (startW.toNat + bs.length) (laW + PGSIZE).toNat stopW.toNat := by
  have hlt' : startW.toNat < stopW.toNat := hlt
  obtain ⟨hlaA, -, hpage⟩ := hat
  obtain ⟨hle, hnext, hfirst⟩ := hpage.resolve_right fun hc => by omega
  have htop := hpl.top
  have hloA := hpl.loA
  have hhiA := hpl.hiA
  have hb := h.building
  rw [hmm] at hb
  have hpg : s.mm.pgdir = d := by
    rw [hmm]
    exact hb.pgdir
  have habs : s.pages.pte d laW = 0#32 := hf.rest laW le_rfl (by omega)
  have hin : InVmas mm.mmap_list laW := hpl.area laW hla (by omega)
  have hoff : (startW - laW).toNat = startW.toNat - laW.toNat :=
    BitVec.toNat_sub_of_le hle
  have hadd : (laW + PGSIZE).toNat = laW.toNat + 4096 := by
    rw [BitVec.toNat_add]
    show (laW.toNat + 4096) % 4294967296 = _
    omega
  have hsize := toNat_partSize (startW - laW) (laW + PGSIZE) stopW (by omega) (by omega) hlt'
  rw [hpg]
  rcases pgdir_alloc_page_added (A := A) hb.settled hb.dir habs hperm with
    ⟨tick, he⟩ | ⟨page, t, frames, he, hadded⟩
  · exact Or.inl ⟨tick, he⟩
  · right
    refine ⟨page, frames, he, hoff, hadd, by rw [hsize, hoff], ?_, ?_⟩
    · intro bs
      exact (hb.added hin habs hperm hadded).wrote (hb.free hadded.fresh) hadded.notTable _ bs
    · intro bs hbl hbs
      have hfill := hf.page (startW - laW).toNat hb.settled hb.dir hperm hlaA hla hloA
        (by omega) hhiA (by omega) (by omega) (by omega) hbs hadded
      rw [hadd]
      refine ⟨hfill, ?_, ?_, ?_⟩
      · omega
      · omega
      · omega

/-- The file part: every byte comes from the file. -/
theorem fileLoop_spec (s1 : Frames) (hpl : Place mm lo hi va) (hperm : perm < PGSIZE) (stopW : Word)
    (hstop : stopW.toNat ≤ hi) {poff : Nat}
    (hwant : ∀ k, va + k < stopW.toNat → want (va + k) = F.bytes (poff + k)) :
    ∀ (rounds : Nat) (startW laW offset : Word) (prev : Option Page) (s : Loader), s.mm = mm →
      Held s0 h0 d s → Filled s1 d lo hi perm want va startW.toNat laW.toNat prev s.pages →
      At va startW.toNat laW.toNat stopW.toNat → lo ≤ laW.toNat → va ≤ startW.toNat →
      offset.toNat = poff + (startW.toNat - va) →
      stopW.toNat + 4096 ≤ laW.toNat + 4096 * rounds →
      Jumps s0 h0 d (fileLoop A F perm stopW rounds startW laW offset prev s) ∨
      ∃ laW' prev' s', fileLoop A F perm stopW rounds startW laW offset prev s =
          some (.next (stopW, laW', prev', s')) ∧ s'.mm = mm ∧ Held s0 h0 d s' ∧
        Filled s1 d lo hi perm want va stopW.toNat laW'.toNat prev' s'.pages ∧
        At va stopW.toNat laW'.toNat stopW.toNat ∧ lo ≤ laW'.toNat := by
  intro rounds
  induction rounds with
  | zero =>
    intro startW laW offset prev s _ _ _ hat _ _ _ hr
    obtain ⟨-, hle, hpage⟩ := hat
    omega
  | succ rounds ih =>
    intro startW laW offset prev s hmm h hf hat hla hva hoffs hr
    unfold fileLoop
    by_cases hlt : startW < stopW
    · rw [if_pos hlt]
      have hlt' : startW.toNat < stopW.toNat := hlt
      have hpage := hat.page
      rcases page_round (A := A) hmm hpl hperm hstop h hf hat hla hlt with
        ⟨tick, he⟩ | ⟨page, frames, he, hoff, hadd, hsize, hbuild, hfill⟩
      · left
        rw [he]
        exact ⟨_, _, rfl, by decide, h.building.tick tick, h.heap⟩
      · rw [he]
        simp only
        obtain ⟨size, hsz⟩ : ∃ size, size = partSize (startW - laW) (laW + PGSIZE) stopW :=
          ⟨_, rfl⟩
        rw [← hsz] at hsize hfill ⊢
        have hle : size.toNat ≤ 4096 := by omega
        rcases hread : load_icode_read F s.reads size offset with ⟨ret, bs⟩
        simp only
        have hheld : Held s0 h0 d { s with
            pages := frames.putBytes page (startW - laW).toNat bs, reads := s.reads + 1 } := by
          refine ⟨?_, h.heap⟩
          show Building s0 d _ s.mm
          rw [hmm]
          exact hbuild bs
        by_cases hret : ret = 0#32
        · rw [if_neg (not_not.2 hret)]
          have hok := load_icode_read_ok F s.reads size offset hle
            (by rw [hread]; exact hret)
          rw [hread] at hok
          obtain ⟨hpos, hbytes⟩ := hok
          simp only at hbytes
          have hlen : bs.length = size.toNat := by
            rw [hbytes, List.length_map, List.length_range]
          have hwant' : ∀ j < bs.length, bs.getD j 0#8 = want (startW.toNat + j) := by
            intro j hj
            have hw := hwant (startW.toNat - va + j) (by omega)
            have hat' : va + (startW.toNat - va + j) = startW.toNat + j := by omega
            rw [hat'] at hw
            have hk : (offset.toNat + j) = poff + (startW.toNat - va + j) := by omega
            rw [hw, hbytes, getD_bytes _ (by omega), hk]
          obtain ⟨hf', hat'⟩ := hfill bs hlen hwant'
          have hstart : (startW + size).toNat = startW.toNat + bs.length := by
            have htop := hpl.top
            rw [BitVec.toNat_add]
            omega
          have hoffset : (offset + size).toNat = offset.toNat + bs.length := by
            rw [BitVec.toNat_add]
            omega
          rw [← hstart] at hf' hat'
          exact ih (startW + size) (laW + PGSIZE) (offset + size) (some page) _ hmm hheld hf' hat'
            (by omega) (by omega) (by omega) (by omega)
        · left
          rw [if_pos hret]
          exact ⟨ret, _, rfl, hret, hheld⟩
    · rw [if_neg hlt]
      have hge : stopW.toNat ≤ startW.toNat := BitVec.not_lt.1 hlt
      have he : startW = stopW := BitVec.eq_of_toNat_eq (Nat.le_antisymm hat.le hge)
      right
      subst he
      exact ⟨laW, prev, s, rfl, hmm, h, hf, hat, hla⟩

theorem toNat_add_size {start : Word} (size : Word) {n hi : Nat} (hsize : size.toNat = n)
    (hle : start.toNat + n ≤ hi) (htop : hi ≤ 2147483648) :
    (start + size).toNat = start.toNat + n := by
  rw [BitVec.toNat_add]
  omega

/-- The zero part: whole pages of zeros, but for the first and the last one. -/
theorem zeroLoop_spec (hpl : Place mm lo hi va) (hperm : perm < PGSIZE) {stopW : Word}
    (hstop : stopW.toNat ≤ hi) :
    ∀ (rounds : Nat) (startW laW : Word) (prev : Option Page) (s : Loader), s.mm = mm →
      Held s0 h0 d s → Filled s1 d lo hi perm want va startW.toNat laW.toNat prev s.pages →
      At va startW.toNat laW.toNat stopW.toNat → lo ≤ laW.toNat →
      (∀ a, startW.toNat ≤ a → a < stopW.toNat → want a = 0#8) →
      stopW.toNat + 4096 ≤ laW.toNat + 4096 * rounds →
      Jumps s0 h0 d (zeroLoop A perm stopW rounds startW laW prev s) ∨
      ∃ la prev' s', zeroLoop A perm stopW rounds startW laW prev s = some (.next (prev', s')) ∧
        s'.mm = mm ∧ Held s0 h0 d s' ∧
        Filled s1 d lo hi perm want va stopW.toNat la prev' s'.pages ∧
        At va stopW.toNat la stopW.toNat := by
  intro rounds
  induction rounds with
  | zero =>
    intro startW laW prev s _ _ _ hat _ _ hr
    obtain ⟨-, hle, hpage⟩ := hat
    omega
  | succ rounds ih =>
    intro startW laW prev s hmm h hf hat hla hz hr
    unfold zeroLoop
    by_cases hlt : startW < stopW
    · rw [if_pos hlt]
      have hlt' : startW.toNat < stopW.toNat := hlt
      have hpage := hat.page
      rcases page_round (A := A) hmm hpl hperm hstop h hf hat hla hlt with
        ⟨tick, he⟩ | ⟨page, frames, he, hoff, hadd, hsize, hbuild, hfill⟩
      · left
        rw [he]
        exact ⟨_, _, rfl, by decide, h.building.tick tick, h.heap⟩
      · rw [he]
        simp only
        obtain ⟨size, hsz⟩ : ∃ size, size = partSize (startW - laW) (laW + PGSIZE) stopW :=
          ⟨_, rfl⟩
        rw [← hsz] at hsize hfill ⊢
        have hlen : (List.replicate size.toNat 0#8).length = size.toNat := List.length_replicate
        obtain ⟨hf', hat'⟩ := hfill (List.replicate size.toNat 0#8) hlen (by
          intro j hj
          rw [hlen] at hj
          rw [List.getD_replicate _ hj, hz _ (by omega) (by omega)])
        have hstart := toNat_add_size size rfl
          (by omega : startW.toNat + size.toNat ≤ hi) hpl.top
        rw [hlen, ← hstart] at hf' hat'
        have hheld : Held s0 h0 d { s with
            pages := frames.putBytes page (startW - laW).toNat (List.replicate size.toNat 0#8) } := by
          refine ⟨?_, h.heap⟩
          show Building s0 d _ s.mm
          rw [hmm]
          exact hbuild _
        exact ih (startW + size) (laW + PGSIZE) (some page) _ hmm hheld hf' hat' (by omega)
          (fun a h1 h2 => hz a (by omega) h2) (by omega)
    · rw [if_neg hlt]
      have hge : stopW.toNat ≤ startW.toNat := BitVec.not_lt.1 hlt
      have he : startW = stopW := BitVec.eq_of_toNat_eq (Nat.le_antisymm hat.le hge)
      right
      subst he
      exact ⟨laW.toNat, prev, s, rfl, hmm, h, hf, hat⟩

/-- The rest of a page that the file part ends in. The assertion holds. -/
theorem clearPart_spec (hpl : Place mm lo hi va) (hperm : perm < PGSIZE) {startW laW stopW : Word}
    {prev : Option Page} {s : Loader} (hmm : s.mm = mm) (hstop : stopW.toNat ≤ hi)
    (h : Held s0 h0 d s) (hf : Filled s1 d lo hi perm want va startW.toNat laW.toNat prev s.pages)
    (hlaA : laW.toNat % 4096 = 0) (hlo : lo < laW.toNat) (hhi : laW.toNat ≤ hi)
    (hlt : startW.toNat < laW.toNat) (hin : laW.toNat < startW.toNat + 4096)
    (hmore : startW.toNat < stopW.toNat)
    (hz : ∀ a, startW.toNat ≤ a → a < stopW.toNat → want a = 0#8) :
    ∃ startW' s', clearPart stopW startW laW prev s = some (startW', s') ∧
      s'.mm = mm ∧ Held s0 h0 d s' ∧ startW'.toNat = min laW.toNat stopW.toNat ∧
      Filled s1 d lo hi perm want va startW'.toNat laW.toNat prev s'.pages := by
  have htop := hpl.top
  obtain ⟨page, he, hpage⟩ := hf.last hlo
  subst he
  have hpg : PGSIZE.toNat = 4096 := rfl
  have hadd : (startW + PGSIZE).toNat = startW.toNat + 4096 := by
    rw [BitVec.toNat_add, hpg]
    omega
  have hoff : (startW + PGSIZE - laW).toNat = startW.toNat + 4096 - laW.toNat := by
    rw [BitVec.toNat_sub_of_le (by show laW.toNat ≤ (startW + PGSIZE).toNat; omega), hadd]
  obtain ⟨off, hoffE⟩ : ∃ off, off = startW + PGSIZE - laW := ⟨_, rfl⟩
  rw [← hoffE] at hoff
  have hsize := toNat_partSize off laW stopW (by omega) (by omega) hmore
  obtain ⟨size, hsz⟩ : ∃ size, size = partSize off laW stopW := ⟨_, rfl⟩
  rw [← hsz] at hsize
  have hlen : (List.replicate size.toNat 0#8).length = size.toNat := List.length_replicate
  have hstart := toNat_add_size size rfl
    (by omega : startW.toNat + size.toNat ≤ hi) htop
  have hb := h.building
  rw [hmm] at hb
  obtain ⟨hb', hf'⟩ := hf.more (List.replicate size.toNat 0#8) off.toNat hb hperm
    hlaA hlo hpl.loA hhi hpl.hiA (by omega) (by omega) (by omega) (by
      intro j hj
      rw [hlen] at hj
      rw [List.getD_replicate _ hj, hz _ (by omega) (by omega)])
  rw [hlen, ← hstart] at hf'
  have hassert : (stopW < laW ∧ startW + size = stopW) ∨ (laW ≤ stopW ∧ startW + size = laW) := by
    by_cases hst : stopW < laW
    · have hst' : stopW.toNat < laW.toNat := hst
      exact Or.inl ⟨hst, BitVec.eq_of_toNat_eq (by omega)⟩
    · have hst' : laW.toNat ≤ stopW.toNat := BitVec.not_lt.1 hst
      exact Or.inr ⟨hst', BitVec.eq_of_toNat_eq (by omega)⟩
  have hpart : clearPart stopW startW laW (some page) s = some (startW + size, { s with
      pages := s.pages.putBytes page off.toNat (List.replicate size.toNat 0#8) }) := by
    unfold clearPart
    simp only
    rw [← hoffE, ← hsz, if_pos hassert]
  refine ⟨startW + size, _, hpart, hmm, ⟨?_, h.heap⟩, by omega, hf'⟩
  show Building s0 d _ s.mm
  rw [hmm]
  exact hb'

theorem clear_bss_spec (stopW : Word) (hpl : Place mm lo hi va) (hperm : perm < PGSIZE)
    {startW laW : Word}
    {prev : Option Page} {s : Loader} (hmm : s.mm = mm) (hstop : stopW.toNat ≤ hi)
    (h : Held s0 h0 d s) (hf : Filled s1 d lo hi perm want va startW.toNat laW.toNat prev s.pages)
    (hat : At va startW.toNat laW.toNat startW.toNat) (hla : lo ≤ laW.toNat)
    (hle : startW.toNat ≤ stopW.toNat) (hva : va ≤ startW.toNat)
    (hz : ∀ a, startW.toNat ≤ a → a < stopW.toNat → want a = 0#8) :
    Jumps s0 h0 d (clear_bss A perm stopW startW laW prev s) ∨
    ∃ la prev' s', clear_bss A perm stopW startW laW prev s = some (.next (prev', s')) ∧
      s'.mm = mm ∧ Held s0 h0 d s' ∧
      Filled s1 d lo hi perm want va stopW.toNat la prev' s'.pages ∧
      At va stopW.toNat la stopW.toNat := by
  have htop := hpl.top
  have hloA := hpl.loA
  have hhiA := hpl.hiA
  have hlo := hpl.lo_le
  have hrounds : NPAGES = 1048576 := rfl
  obtain ⟨hlaA, -, hpage⟩ := hat
  unfold clear_bss
  by_cases hin : startW < laW
  · have hin' : startW.toNat < laW.toNat := hin
    rw [if_pos hin]
    by_cases hdone : stopW ≤ startW
    · rw [if_pos hdone]
      have hdone' : stopW.toNat ≤ startW.toNat := hdone
      have he : startW = stopW := BitVec.eq_of_toNat_eq (Nat.le_antisymm hle hdone')
      subst he
      right
      exact ⟨laW.toNat, prev, s, rfl, hmm, h, hf, hlaA, le_rfl, hpage⟩
    · rw [if_neg hdone]
      have hmore : startW.toNat < stopW.toNat := BitVec.not_le.1 hdone
      obtain ⟨startW', s', he, hmm', h', hs', hf'⟩ := clearPart_spec hpl hperm hmm hstop h hf hlaA
        (by omega) (by omega) hin' (by omega) hmore hz
      rw [he]
      simp only
      refine zeroLoop_spec hpl hperm hstop NPAGES startW' laW prev s' hmm' h' hf' ?_ hla ?_ ?_
      · refine ⟨hlaA, by omega, ?_⟩
        omega
      · intro a h1 h2
        exact hz a (by omega) h2
      · omega
  · have hge : laW.toNat ≤ startW.toNat := BitVec.not_lt.1 hin
    rw [if_neg hin]
    refine zeroLoop_spec hpl hperm hstop NPAGES startW laW prev s hmm h hf ?_ hla hz ?_
    · refine ⟨hlaA, hle, ?_⟩
      omega
    · omega

end

/-! ## One segment -/

/-- The byte that belongs at `p_va + k`: from the file, or zero. -/
def segByte (F : File) (ph : Proghdr) (k : Nat) : Byte :=
  if k < ph.p_filesz.toNat then F.bytes (ph.p_offset.toNat + k) else 0#8

/-- The area of a segment. -/
def segArea (ph : Proghdr) : Vma := mappedArea ph.p_va ph.p_memsz (segFlags ph)

/-- The test of the sizes and the test of `mm_map` pass, and still the segment runs past the end
of memory. -/
def Wraps (ph : Proghdr) : Prop :=
  ph.p_filesz ≤ ph.p_memsz ∧ USER_ACCESS (segArea ph).vm_start (segArea ph).vm_end ∧
    2 ^ 32 < ph.p_va.toNat + ph.p_memsz.toNat

/-- The segment is in the memory, and in its areas. -/
structure InMemory (F : File) (ph : Proghdr) (d : Nat) (s : Loader) : Prop where
  bytes : ∀ k < ph.p_memsz.toNat,
    s.pages.userByte d (ph.p_va + BitVec.ofNat 32 k) = some (segByte F ph k)
  pages : ∀ k < ph.p_memsz.toNat, ∃ page,
    s.pages.pte d (ph.p_va + BitVec.ofNat 32 k) =
      page2pa page ||| PTE_P ||| areaPerm (segFlags ph)
  inside : ∀ k < ph.p_memsz.toNat, InVmas s.mm.mmap_list (ph.p_va + BitVec.ofNat 32 k)

/-- Pages are mapped in the areas only. -/
def Clean (d : Nat) (s : Loader) : Prop :=
  ∀ la, s.pages.pte d la ≠ 0#32 → InVmas s.mm.mmap_list la

/-- What a part of `load_icode` leaves as it was: all that was in the areas. -/
structure Keeps (d : Nat) (s s' : Loader) : Prop where
  areas : ∀ {la}, InVmas s.mm.mmap_list la → InVmas s'.mm.mmap_list la
  pte : ∀ {la}, InVmas s.mm.mmap_list la → s'.pages.pte d la = s.pages.pte d la
  byte : ∀ {la}, InVmas s.mm.mmap_list la → s'.pages.userByte d la = s.pages.userByte d la

theorem InMemory.keeps {F : File} {ph : Proghdr} {d : Nat} {s s' : Loader}
    (h : InMemory F ph d s) (hk : Keeps d s s') : InMemory F ph d s' := by
  refine ⟨?_, ?_, ?_⟩
  · intro k hlt
    rw [hk.byte (h.inside k hlt)]
    exact h.bytes k hlt
  · intro k hlt
    rw [hk.pte (h.inside k hlt)]
    exact h.pages k hlt
  · intro k hlt
    exact hk.areas (h.inside k hlt)

section

variable {A : Allocator} {F : File} {s0 : Frames} {h0 d : Nat} {s : Loader}

theorem Jumps.held {α : Type} {ret : Word} {s' : Loader} {r : Option (Part α)}
    (h : Jumps s0 h0 d r) (he : r = some (.bad_cleanup_mmap ret s')) :
    ret ≠ 0#32 ∧ Held s0 h0 d s' := by
  obtain ⟨ret', t, hr, hne, ht⟩ := h
  rw [hr, Option.some_inj, Part.bad_cleanup_mmap.injEq] at he
  obtain ⟨rfl, rfl⟩ := he
  exact ⟨hne, ht⟩

theorem map_area_ret (r : Option (Mm × Bool)) : (match r with
    | some (_, true) => -E_NO_MEM
    | _ => -E_INVAL) ≠ 0#32 := by
  split
  · decide
  · decide

/-- `mm_map` fails and leaves the areas, or the area is there. -/
theorem map_area_spec (h : Held s0 h0 d s) (addr len vm_flags : Word) :
    Jumps s0 h0 d (map_area A addr len vm_flags s) ∨
    ∃ s', map_area A addr len vm_flags s = some (.next s') ∧ Held s0 h0 d s' ∧
      USER_ACCESS (mappedArea addr len vm_flags).vm_start (mappedArea addr len vm_flags).vm_end ∧
      (∀ w ∈ s.mm.mmap_list, intervals.Apart Vma.lo Vma.hi (mappedArea addr len vm_flags) w) ∧
      s'.mm.mmap_list.Perm (mappedArea addr len vm_flags :: s.mm.mmap_list) ∧
      s'.pages = { s.pages with tick := s.pages.tick + 1 } := by
  have hlist := h.building.list
  have hret := map_area_ret (mm_map s.mm addr len vm_flags true)
  have hb := h.building.tick (s.pages.tick + 1)
  unfold map_area
  rcases mm_map_ends hlist addr len vm_flags (A.memory s.pages.tick) with
    ⟨-, he⟩ | ⟨-, -, he⟩ | ⟨hu, hap, -, list, hperm, he⟩
  · left
    rw [he]
    exact ⟨_, _, rfl, hret, hb, h.heap⟩
  · left
    have hsame := SameAreas.find_vma hlist (mappedArea addr len vm_flags).vm_start
    rw [he]
    refine ⟨_, _, rfl, hret, hb.sameAreas hsame (hlist.find_vma _), ?_⟩
    show s.heap = h0 + ((nehcpu.kernel.find_vma s.mm _).2.mmap_list.length + 1)
    rw [hsame.mmap_list]
    exact h.heap
  · right
    obtain ⟨mm', ok, he', hok⟩ := mm_map_ok hlist addr len vm_flags (A.memory s.pages.tick)
    rw [he, Option.some_inj, Prod.mk.injEq] at he'
    obtain ⟨rfl, -⟩ := he'
    have hsame := SameAreas.find_vma hlist (mappedArea addr len vm_flags).vm_start
    rw [he]
    refine ⟨_, rfl, ⟨?_, ?_⟩, hu, hap, hperm, rfl⟩
    · exact hb.area hperm hsame.pgdir hsame.mm_count hok
        ⟨pageAligned_ROUNDDOWN addr, pageAligned_ROUNDDOWN _, hu⟩
    · show s.heap + 1 = h0 + (list.length + 1)
      rw [hperm.length_eq, List.length_cons, h.heap]
      omega

/-- Where the area of a segment that does not wrap lies. -/
theorem segArea_place {ph : Proghdr} (hle : ph.p_filesz ≤ ph.p_memsz) (hw : ¬ Wraps ph)
    (hu : USER_ACCESS (segArea ph).vm_start (segArea ph).vm_end) {mm : Mm}
    (hin : segArea ph ∈ mm.mmap_list) :
    Place mm (segArea ph).lo (segArea ph).hi ph.p_va.toNat ∧
      ph.p_va.toNat + ph.p_memsz.toNat ≤ (segArea ph).hi := by
  have htop : USERTOP.toNat = 0x80000000 := rfl
  have hlo : (segArea ph).lo = pageOf ph.p_va := mappedArea_lo _ _ _
  have hhiA : (segArea ph).hi % 4096 = 0 := by
    rw [segArea, mappedArea_hi]
    exact Nat.mul_mod_left _ _
  have hhi : (segArea ph).hi ≤ USERTOP.toNat := hu.2.2
  have hlt : (segArea ph).lo < (segArea ph).hi := hu.2.1
  have hsum : ph.p_va.toNat + ph.p_memsz.toNat ≤ 2 ^ 32 := by
    apply Nat.le_of_not_lt
    intro hsum
    exact hw ⟨hle, hu, hsum⟩
  have hend : ph.p_va.toNat + ph.p_memsz.toNat ≤ (segArea ph).hi := by
    rcases (user_access_iff ph.p_va ph.p_memsz (segFlags ph)).1 hu with hv | ⟨-, ht, he⟩
    · exact (mappedArea_contains (segFlags ph) hv).2
    · have hpage : (segArea ph).hi = pageOf ph.p_va + 4096 := mappedArea_page (segFlags ph) he ht
      unfold EndsInPage at he
      rw [BitVec.toNat_neg] at he
      rw [hpage]
      unfold pageOf
      omega
  rw [hlo] at hlt ⊢
  refine ⟨⟨?_, hhiA, by omega, ?_, ?_, ?_⟩, hend⟩
  · unfold pageOf
    omega
  · unfold pageOf
    omega
  · unfold pageOf
    omega
  · intro a h1 h2
    rw [← hlo] at h1
    exact ⟨segArea ph, hin, h1, h2⟩

theorem load_segment_spec {ph : Proghdr} (hw : ¬ Wraps ph) (prev : Option Page)
    (h : Held s0 h0 d s) (hc : Clean d s) :
    Jumps s0 h0 d (load_segment A F ph prev s) ∨
    ∃ page s', load_segment A F ph prev s = some (.next (page, s')) ∧ Held s0 h0 d s' ∧
      Clean d s' ∧ InMemory F ph d s' ∧ Keeps d s s' := by
  unfold load_segment
  by_cases hsz : ph.p_memsz < ph.p_filesz
  · left
    rw [if_pos hsz]
    exact ⟨_, _, rfl, by decide, h⟩
  have hle : ph.p_filesz ≤ ph.p_memsz := BitVec.not_lt.1 hsz
  have hle' : ph.p_filesz.toNat ≤ ph.p_memsz.toNat := hle
  rw [if_neg hsz]
  rcases map_area_spec (A := A) h ph.p_va ph.p_memsz (segFlags ph) with
    ⟨ret, s', he, hret⟩ | ⟨s1, he, h1, hu, hap, hperm, hpages⟩
  · left
    rw [he]
    exact ⟨ret, s', rfl, hret⟩
  · rw [he]
    simp only
    obtain ⟨hpl, hend⟩ := segArea_place hle hw hu
      (hperm.mem_iff.2 List.mem_cons_self : segArea ph ∈ s1.mm.mmap_list)
    have htop := hpl.top
    have hlole := hpl.lo_le
    have hlolt := hpl.lt
    have hloA := hpl.loA
    -- the area is apart from those that were there
    have hapart : ∀ {la : Word}, InVmas s.mm.mmap_list la →
        ¬ ((segArea ph).lo ≤ la.toNat ∧ la.toNat < (segArea ph).hi) := by
      rintro la ⟨w, hwm, hl, hh⟩ ⟨h2, h3⟩
      have hl' : w.lo ≤ la.toNat := hl
      have hh' : la.toNat < w.hi := hh
      rcases hap w hwm with hd | hd
      · have hd' : (segArea ph).hi ≤ w.lo := hd
        omega
      · have hd' : w.hi ≤ (segArea ph).lo := hd
        omega
    have hpte1 : ∀ la, s1.pages.pte d la = s.pages.pte d la := by
      intro la
      rw [hpages]
      rfl
    have hbyte1 : ∀ la, s1.pages.userByte d la = s.pages.userByte d la := by
      intro la
      rw [hpages]
      rfl
    have hempty : ∀ a : Word, (segArea ph).lo ≤ a.toNat → a.toNat < (segArea ph).hi →
        s1.pages.pte d a = 0#32 := by
      intro a h2 h3
      rw [hpte1]
      by_contra hne
      exact hapart (hc a hne) ⟨h2, h3⟩
    -- the file part
    have hla : (ROUNDDOWN_2N ph.p_va PGSHIFT).toNat = (segArea ph).lo := rfl
    have hfileEnd : (ph.p_va + ph.p_filesz).toNat = ph.p_va.toNat + ph.p_filesz.toNat := by
      rw [BitVec.toNat_add]
      omega
    have hmemEnd : (ph.p_va + ph.p_memsz).toNat = ph.p_va.toNat + ph.p_memsz.toNat := by
      rw [BitVec.toNat_add]
      omega
    have hrounds : NPAGES = 1048576 := rfl
    obtain ⟨want, hwantE⟩ : ∃ want : Nat → Byte, want = fun a => segByte F ph (a - ph.p_va.toNat) :=
      ⟨_, rfl⟩
    have hfile : ∀ k, ph.p_va.toNat + k < (ph.p_va + ph.p_filesz).toNat →
        want (ph.p_va.toNat + k) = F.bytes (ph.p_offset.toNat + k) := by
      intro k hk
      rw [hwantE]
      simp only [Nat.add_sub_cancel_left]
      unfold segByte
      rw [if_pos (by omega)]
    have hzero : ∀ a, (ph.p_va + ph.p_filesz).toNat ≤ a → a < (ph.p_va + ph.p_memsz).toNat →
        want a = 0#8 := by
      intro a h2 h3
      rw [hwantE]
      simp only
      unfold segByte
      rw [if_neg (by omega)]
    rcases fileLoop_spec (A := A) (F := F) s1.pages hpl (areaPerm_lt (segFlags ph))
        (ph.p_va + ph.p_filesz) (by omega) hfile NPAGES ph.p_va
        (ROUNDDOWN_2N ph.p_va PGSHIFT) ph.p_offset prev s1 rfl h1 (Filled.begin hempty prev)
        ⟨hloA, by omega, Or.inl ⟨by omega, by omega, Or.inl rfl⟩⟩ hla.ge le_rfl (by omega)
        (by omega) with
      ⟨ret, s', he', hret⟩ | ⟨laW, page, s2, he', hmm2, h2, hf2, hat2, hla2⟩
    · left
      rw [he']
      exact ⟨ret, s', rfl, hret⟩
    rw [he']
    simp only
    rcases clear_bss_spec (A := A) (ph.p_va + ph.p_memsz) hpl
        (areaPerm_lt (segFlags ph)) hmm2 (by omega) h2 hf2 hat2 hla2 (by omega) (by omega)
        hzero with
      hj | ⟨la3, page3, s3, he3, hmm3, h3, hf3, hat3⟩
    · exact Or.inl hj
    right
    rw [he3]
    have haddr : ∀ k < ph.p_memsz.toNat,
        (ph.p_va + BitVec.ofNat 32 k).toNat = ph.p_va.toNat + k := by
      intro k hk
      rw [BitVec.toNat_add, BitVec.toNat_ofNat]
      omega
    have hpage3 := hat3.page
    refine ⟨page3, s3, rfl, h3, ?_, ⟨?_, ?_, ?_⟩, ⟨?_, ?_, ?_⟩⟩
    · intro la hne
      rw [hmm3]
      by_cases hin : (segArea ph).lo ≤ la.toNat ∧ la.toNat < (segArea ph).hi
      · exact hpl.area la hin.1 hin.2
      · rw [(hf3.outside la hin).1, hpte1] at hne
        obtain ⟨w, hwm, hr⟩ := hc la hne
        exact ⟨w, hperm.mem_iff.2 (List.mem_cons_of_mem _ hwm), hr⟩
    · intro k hk
      have hat := haddr k hk
      rw [hf3.bytes _ (by omega) (by omega), hat, hwantE]
      simp only [Nat.add_sub_cancel_left]
    · intro k hk
      have hat := haddr k hk
      exact hf3.mapped _ (by omega) (by omega)
    · intro k hk
      have hat := haddr k hk
      rw [hmm3]
      exact hpl.area _ (by omega) (by omega)
    · rintro la ⟨w, hwm, hr⟩
      rw [hmm3]
      exact ⟨w, hperm.mem_iff.2 (List.mem_cons_of_mem _ hwm), hr⟩
    · intro la hin
      rw [(hf3.outside la (hapart hin)).1, hpte1]
    · intro la hin
      rw [(hf3.outside la (hapart hin)).2, hbyte1]

end

end nehcpu.kernel.frames
