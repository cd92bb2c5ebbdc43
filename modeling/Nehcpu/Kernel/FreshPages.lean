-- What the old bytes of a free frame can do: two machines that differ only there run alike, through
-- page faults and `load_icode`, but for the bytes of fresh pages that nothing was stored to.
import Nehcpu.Kernel.Execve

namespace nehcpu.kernel.frames

open cpu refcount Function lanes

/-! ## Two memories -/

abbrev Memory := Page → Nat → Word

/-- The same frames with other words in them. -/
def Frames.on (s : Frames) (m : Memory) : Frames := { s with mem := m }

def byteIn (m : Memory) (page : Page) (k : Nat) : Byte :=
  lane (m page (k / 4)) (BitVec.ofNat 2 k)

/-- The frame was free at the start, and both bytes are still those of the start. -/
def Stale (s0 : Frames) (m0 : Memory) (s : Frames) (m : Memory) (page : Page) (k : Nat) : Prop :=
  s0.free page = true ∧ s.byte page k = s0.byte page k ∧ byteIn m page k = byteIn m0 page k

/-- The second machine has the words `m`: the same page tables, and elsewhere the same bytes, or
those that were there at the start. -/
structure Alike (s0 : Frames) (m0 : Memory) (s : Frames) (m : Memory) : Prop where
  tables : ∀ p, s.IsTable p → m p = s.mem p
  bytes : ∀ p k, byteIn m p k = s.byte p k ∨ Stale s0 m0 s m p k

/-- What a part of the kernel does on the two machines. -/
structure Follows {α : Type} (s0 : Frames) (m0 : Memory) (s : Frames) (x x' : α × Frames) : Prop where
  dirs : x.2.dirs = s.dirs
  same : ∃ m, x' = (x.1, x.2.on m) ∧ Alike s0 m0 x.2 m

section

variable {s0 s t : Frames} {m0 m : Memory}

theorem Alike.begin (h : Settled s0) (hm : ∀ p, s0.free p = false → m0 p = s0.mem p) :
    Alike s0 m0 s0 m0 := by
  constructor
  · intro p hp
    exact hm p (h.table hp).2.1
  · intro p k
    cases hf : s0.free p with
    | true => exact Or.inr ⟨hf, rfl, rfl⟩
    | false =>
      left
      unfold byteIn Frames.byte
      rw [hm p hf]

/-- Where no word changes. -/
theorem Alike.of_mem (h : Alike s0 m0 s m) (hm : t.mem = s.mem)
    (ht : ∀ p, t.IsTable p → s.IsTable p) : Alike s0 m0 t m := by
  have hb : ∀ p k, t.byte p k = s.byte p k := by
    intro p k
    unfold Frames.byte
    rw [hm]
  constructor
  · intro p hp
    rw [hm]
    exact h.tables p (ht p hp)
  · intro p k
    unfold Stale
    rw [hb]
    exact h.bytes p k

/-- Where both machines store the same. -/
theorem Alike.stored {m' : Memory} (h : Alike s0 m0 s m)
    (ht : ∀ p, t.IsTable p → m' p = t.mem p)
    (hb : ∀ p k, byteIn m' p k = t.byte p k ∨
      (byteIn m' p k = byteIn m p k ∧ t.byte p k = s.byte p k)) : Alike s0 m0 t m' := by
  refine ⟨ht, ?_⟩
  intro p k
  rcases hb p k with he | ⟨h1, h2⟩
  · exact Or.inl he
  · unfold Stale
    rw [h1, h2]
    exact h.bytes p k

theorem Alike.newTable {d : Nat} {la : Word} {page : Page} (h : Alike s0 m0 s m) :
    Alike s0 m0 (frames.newTable s d la page) (update m page fun _ => 0#32) := by
  have hmem : ∀ p, (frames.newTable s d la page).mem p =
      if p = page then fun _ => 0#32 else s.mem p := fun p => update_apply _ _ _ _
  apply h.stored
  · rintro p ⟨d', hd', i, hi, ht⟩
    rw [hmem, update_apply]
    by_cases hp : p = page
    · rw [if_pos hp, if_pos hp]
    · rw [if_neg hp, if_neg hp]
      refine h.tables p ⟨d', hd', i, hi, ?_⟩
      -- the one new entry of a directory is that of `page`
      have ht' : entryPage (update s.pgdirs d (update (s.pgdirs d) (PDX la)
          (page2pa page ||| (PTE_U ||| PTE_P ||| PTE_W))) d' i) = some p := ht
      rw [update_apply] at ht'
      split at ht'
      · next he =>
        subst he
        rw [update_apply] at ht'
        split at ht'
        · rw [entryPage_or page (by decide) (by decide)] at ht'
          exact absurd (Option.some_inj.1 ht').symm hp
        · exact ht'
      · exact ht'
  · intro p k
    unfold byteIn Frames.byte
    rw [hmem, update_apply]
    by_cases hp : p = page
    · rw [if_pos hp, if_pos hp]
      exact Or.inl rfl
    · rw [if_neg hp, if_neg hp]
      exact Or.inr ⟨rfl, rfl⟩

theorem Alike.store {ptep : PtePtr} (h : Alike s0 m0 s m) (pte : pte_t) :
    Alike s0 m0 (s.store ptep pte)
      (update m ptep.table (update (m ptep.table) ptep.index pte)) := by
  have hmem : ∀ p j, (s.store ptep pte).mem p j =
      if (⟨p, j⟩ : PtePtr) = ptep then pte else s.mem p j :=
    fun p j => load_store s ptep ⟨p, j⟩ pte
  have hm : ∀ p j, update m ptep.table (update (m ptep.table) ptep.index pte) p j =
      if (⟨p, j⟩ : PtePtr) = ptep then pte else m p j :=
    fun p j => load_store (s.on m) ptep ⟨p, j⟩ pte
  apply h.stored
  · intro p hp
    funext j
    rw [hmem, hm]
    split
    · rfl
    · rw [h.tables p hp]
  · intro p k
    unfold byteIn Frames.byte
    rw [hmem, hm]
    split
    · exact Or.inl rfl
    · exact Or.inr ⟨rfl, rfl⟩

theorem Alike.putByte (h : Alike s0 m0 s m) (page : Page) (k : Nat) (b : Byte) :
    ∃ m', (s.on m).putByte page k b = (s.putByte page k b).on m' ∧
      Alike s0 m0 (s.putByte page k b) m' := by
  refine ⟨((s.on m).putByte page k b).mem, rfl, ?_⟩
  apply h.stored
  · intro p hp
    have he := h.tables p hp
    by_cases hpage : p = page
    · subst hpage
      funext j
      show update m p (update (m p) (k / 4) _) p j = update s.mem p (update (s.mem p) (k / 4) _) p j
      rw [update_self, update_self]
      show update (m p) (k / 4) (ofLanes fun i => if i = BitVec.ofNat 2 k then b
        else lane (m p (k / 4)) i) j = _
      rw [he]
    · show update m page _ p = update s.mem page _ p
      rw [update_of_ne hpage, update_of_ne hpage, he]
  · intro p j
    show ((s.on m).putByte page k b).byte p j = _ ∨ ((s.on m).putByte page k b).byte p j = _ ∧ _
    rw [byte_putByte, byte_putByte]
    split
    · exact Or.inl rfl
    · exact Or.inr ⟨rfl, rfl⟩

theorem Alike.putBytes (h : Alike s0 m0 s m) (page : Page) (off : Nat) (bs : List Byte) :
    ∃ m', (s.on m).putBytes page off bs = (s.putBytes page off bs).on m' ∧
      Alike s0 m0 (s.putBytes page off bs) m' := by
  induction bs generalizing s m off with
  | nil => exact ⟨m, rfl, h⟩
  | cons b bs ih =>
    obtain ⟨m1, he, h1⟩ := h.putByte page off b
    obtain ⟨m2, he2, h2⟩ := ih h1 (off + 1)
    refine ⟨m2, ?_, h2⟩
    show ((s.on m).putByte page off b).putBytes page (off + 1) bs = _
    rw [he]
    exact he2

end
/-! ## The frames -/

/-- What an operation makes of the two machines: `t` of `s`, and `t'` of the other one. -/
structure Goes (s0 : Frames) (m0 : Memory) (s t t' : Frames) : Prop where
  dirs : t.dirs = s.dirs
  same : ∃ m, t' = t.on m ∧ Alike s0 m0 t m

section

variable {A : Allocator} {s0 s t t' : Frames} {m0 m : Memory} {d : Nat} {la perm : Word}

theorem Goes.of_mem (h : Alike s0 m0 s m) (hd : t.dirs = s.dirs) (hm : t.mem = s.mem)
    (ht : ∀ p, t.IsTable p → s.IsTable p) : Goes s0 m0 s t (t.on m) :=
  ⟨hd, m, rfl, h.of_mem hm ht⟩

theorem Goes.store {ptep : PtePtr} {pte : pte_t} (h : Goes s0 m0 s t t') :
    Goes s0 m0 s (t.store ptep pte) (t'.store ptep pte) := by
  obtain ⟨hd, m, rfl, hm⟩ := h
  exact ⟨hd, _, rfl, hm.store pte⟩

/-- The words of page tables are the same. -/
theorem Alike.load {ptep : PtePtr} (h : Alike s0 m0 s m) (ht : s.IsTable ptep.table) :
    (s.on m).load ptep = s.load ptep := by
  show m ptep.table ptep.index = s.mem ptep.table ptep.index
  rw [h.tables _ ht]

theorem Alike.pte (h : Alike s0 m0 s m) (hd : d ∈ s.dirs) (la : Word) :
    (s.on m).pte d la = s.pte d la := by
  have htab : (s.on m).table d (PDX la) = s.table d (PDX la) := rfl
  unfold Frames.pte
  rw [htab]
  rcases ht : s.table d (PDX la) with _ | t
  · rfl
  · exact h.load ⟨d, hd, PDX la, PDX_lt la, ht⟩

theorem alloc_page_goes (h : Alike s0 m0 s m) :
    (alloc_page A (s.on m)).1 = (alloc_page A s).1 ∧
      Goes s0 m0 s (alloc_page A s).2 (alloc_page A (s.on m)).2 := by
  have he : A.pick (s.on m).free (s.on m).tick = A.pick s.free s.tick := rfl
  unfold alloc_page
  rw [he]
  cases A.pick s.free s.tick with
  | none => exact ⟨rfl, Goes.of_mem h rfl rfl fun _ => id⟩
  | some page => exact ⟨rfl, Goes.of_mem h rfl rfl fun _ => id⟩

theorem get_pte_goes (h : Alike s0 m0 s m) (hd : d ∈ s.dirs) (la : Word) (create : Bool) :
    (get_pte A (s.on m) d la create).1 = (get_pte A s d la create).1 ∧
      Goes s0 m0 s (get_pte A s d la create).2 (get_pte A (s.on m) d la create).2 ∧
      ∀ ptep, (get_pte A s d la create).1 = some ptep →
        (get_pte A s d la create).2.IsTable ptep.table := by
  have htab : (s.on m).table d (PDX la) = s.table d (PDX la) := rfl
  obtain ⟨hpick, halloc⟩ := alloc_page_goes (A := A) h
  unfold get_pte
  rw [htab]
  rcases ht : s.table d (PDX la) with _ | table
  · simp only
    split
    · exact ⟨rfl, Goes.of_mem h rfl rfl fun _ => id, fun _ hc => nomatch hc⟩
    · rcases he : alloc_page A s with ⟨_ | page, s1⟩
      · rcases he' : alloc_page A (s.on m) with ⟨_ | page', s1'⟩
        · rw [he, he'] at halloc
          exact ⟨rfl, halloc, fun _ hc => nomatch hc⟩
        · rw [he, he'] at hpick
          cases hpick
      · rcases he' : alloc_page A (s.on m) with ⟨_ | page', s1'⟩
        · rw [he, he'] at hpick
          cases hpick
        · rw [he, he'] at hpick halloc
          obtain rfl := Option.some_inj.1 hpick
          obtain ⟨hd1, m1, hs1, h1⟩ := halloc
          simp only at hd1 hs1 h1
          subst hs1
          refine ⟨rfl, ⟨hd1, _, rfl, h1.newTable⟩, ?_⟩
          intro ptep hp
          obtain rfl := Option.some_inj.1 hp
          refine ⟨d, ?_, PDX la, PDX_lt la, ?_⟩
          · show d ∈ s1.dirs
            rw [hd1]
            exact hd
          · show entryPage (update s1.pgdirs d (update (s1.pgdirs d) (PDX la)
              (page2pa page' ||| (PTE_U ||| PTE_P ||| PTE_W))) d (PDX la)) = some page'
            rw [update_self, update_self]
            exact entryPage_or page' (by decide) (by decide)
  · refine ⟨rfl, Goes.of_mem h rfl rfl fun _ => id, ?_⟩
    intro ptep hp
    obtain rfl := Option.some_inj.1 hp
    exact ⟨d, hd, PDX la, PDX_lt la, ht⟩

theorem page_remove_pte_goes {ptep : PtePtr} (h : Alike s0 m0 s m) (ht : s.IsTable ptep.table) :
    Goes s0 m0 s (page_remove_pte s ptep) (page_remove_pte (s.on m) ptep) := by
  unfold page_remove_pte
  rw [h.load ht]
  split
  · apply Goes.store
    show Goes s0 m0 s _ (if (page_ref_dec s (pte2page (s.load ptep))).ref _ = 0 then _ else _)
    split
    · exact Goes.of_mem h rfl rfl fun _ => id
    · exact Goes.of_mem h rfl rfl fun _ => id
  · exact Goes.of_mem h rfl rfl fun _ => id

theorem page_insert_goes (h : Alike s0 m0 s m) (hd : d ∈ s.dirs) (page : Page) (la perm : Word) :
    (page_insert A (s.on m) d page la perm).1 = (page_insert A s d page la perm).1 ∧
      Goes s0 m0 s (page_insert A s d page la perm).2
        (page_insert A (s.on m) d page la perm).2 := by
  obtain ⟨hr, ⟨hd1, m1, hs1, h1⟩, htab⟩ := get_pte_goes (A := A) h hd la true
  unfold page_insert
  rcases hg : get_pte A s d la true with ⟨r, s1⟩
  rcases hg' : get_pte A (s.on m) d la true with ⟨r', s1'⟩
  rw [hg, hg'] at hr hs1
  rw [hg] at hd1 h1 htab
  simp only at hr hs1 hd1 h1 htab
  subst hr hs1
  cases r' with
  | none => exact ⟨rfl, hd1, m1, rfl, h1⟩
  | some ptep =>
    refine ⟨rfl, ?_⟩
    have ht := htab ptep rfl
    apply Goes.store
    have h2 : Alike s0 m0 (page_ref_inc s1 page) m1 := h1.of_mem rfl fun _ => id
    have hload : (page_ref_inc (s1.on m1) page).load ptep = (page_ref_inc s1 page).load ptep :=
      h2.load ht
    rw [hload]
    split
    · split
      · exact ⟨hd1, m1, rfl, h1.of_mem rfl fun _ => id⟩
      · obtain ⟨hd2, m2, hs2, h3⟩ := page_remove_pte_goes h2 ht
        exact ⟨hd2.trans hd1, m2, hs2, h3⟩
    · exact ⟨hd1, m1, rfl, h2⟩

theorem pgdir_alloc_page_goes (h : Alike s0 m0 s m) (hd : d ∈ s.dirs) (la perm : Word) :
    (pgdir_alloc_page A (s.on m) d la perm).1 = (pgdir_alloc_page A s d la perm).1 ∧
      Goes s0 m0 s (pgdir_alloc_page A s d la perm).2
        (pgdir_alloc_page A (s.on m) d la perm).2 := by
  obtain ⟨hr, hd1, m1, hs1, h1⟩ := alloc_page_goes (A := A) h
  unfold pgdir_alloc_page
  rcases ha : alloc_page A s with ⟨r, s1⟩
  rcases ha' : alloc_page A (s.on m) with ⟨r', s1'⟩
  rw [ha, ha'] at hr hs1
  rw [ha] at hd1 h1
  simp only at hr hs1 hd1 h1
  subst hr hs1
  cases r' with
  | none => exact ⟨rfl, hd1, m1, rfl, h1⟩
  | some page =>
    have hds : d ∈ s1.dirs := by
      rw [hd1]
      exact hd
    obtain ⟨hok, hd2, m2, hs2, h2⟩ := page_insert_goes (A := A) h1 hds page la perm
    simp only
    rcases hi : page_insert A s1 d page la perm with ⟨ok, s2⟩
    rcases hi' : page_insert A (s1.on m1) d page la perm with ⟨ok', s2'⟩
    rw [hi, hi'] at hok hs2
    rw [hi] at hd2 h2
    simp only at hok hs2 hd2 h2
    subst hok hs2
    cases ok' with
    | true => exact ⟨rfl, hd2.trans hd1, m2, rfl, h2⟩
    | false => exact ⟨rfl, hd2.trans hd1, m2, rfl, h2.of_mem rfl fun _ => id⟩

end
/-! ## The end of a memory, and page faults -/

section

variable {A : Allocator} {s0 s t t' u u' : Frames} {m0 m : Memory} {d : Nat} {stop : Word}

theorem Goes.refl (h : Alike s0 m0 s m) : Goes s0 m0 s s (s.on m) := ⟨rfl, m, rfl, h⟩

theorem Goes.trans (h : Goes s0 m0 s t t')
    (hu : ∀ m, Alike s0 m0 t m → t' = t.on m → Goes s0 m0 t u u') : Goes s0 m0 s u u' := by
  obtain ⟨hd, m, ht, hm⟩ := h
  obtain ⟨hd2, hs⟩ := hu m hm ht
  exact ⟨hd2.trans hd, hs⟩

theorem unmapLoop_goes (rounds : Nat) (start : Word) (h : Alike s0 m0 s m) (hd : d ∈ s.dirs) :
    Goes s0 m0 s (unmapLoop A d stop rounds start s) (unmapLoop A d stop rounds start (s.on m)) := by
  induction rounds generalizing s m start with
  | zero => exact Goes.refl h
  | succ rounds ih =>
    obtain ⟨hr, hg1, htab⟩ := get_pte_goes (A := A) h hd start false
    unfold unmapLoop
    rcases hg : get_pte A s d start false with ⟨r, s1⟩
    rcases hg' : get_pte A (s.on m) d start false with ⟨r', s1'⟩
    rw [hg, hg'] at hr hg1
    rw [hg] at htab
    simp only at hr hg1 htab
    subst hr
    -- the loop goes on after what the round did
    have hnext : ∀ {v v' : Frames} (start' : Word), Goes s0 m0 s v v' →
        Goes s0 m0 s
          (if start' ≠ 0#32 ∧ start' < stop then unmapLoop A d stop rounds start' v else v)
          (if start' ≠ 0#32 ∧ start' < stop then unmapLoop A d stop rounds start' v' else v') := by
      intro v v' start' hv
      split
      · apply hv.trans
        rintro m2 hm2 rfl
        apply ih start' hm2
        rw [hv.dirs]
        exact hd
      · exact hv
    cases r' with
    | none => exact hnext _ hg1
    | some ptep =>
      apply hnext
      obtain ⟨hd1, m1, rfl, h1⟩ := hg1
      have ht := htab ptep rfl
      rw [h1.load ht]
      split
      · obtain ⟨hd2, hs2⟩ := page_remove_pte_goes h1 ht
        exact ⟨hd2.trans hd1, hs2⟩
      · exact ⟨hd1, m1, rfl, h1⟩

theorem exitEntry_goes (i : Nat) (h : Alike s0 m0 s m) :
    Goes s0 m0 s (exitEntry s d i) (exitEntry (s.on m) d i) := by
  have htab : (s.on m).table d i = s.table d i := rfl
  unfold exitEntry
  rw [htab]
  rcases s.table d i with _ | table
  · exact Goes.refl h
  · refine Goes.of_mem h rfl rfl ?_
    rintro p ⟨d', hd', j, hj, ht⟩
    refine ⟨d', hd', j, hj, ?_⟩
    have ht' : entryPage (update s.pgdirs d (update (s.pgdirs d) i 0#32) d' j) = some p := ht
    rw [update_apply] at ht'
    split at ht'
    · next he =>
      subst he
      rw [update_apply] at ht'
      split at ht'
      · rw [entryPage_zero] at ht'
        cases ht'
      · exact ht'
    · exact ht'

theorem exitLoop_goes (rounds : Nat) (start : Word) (h : Alike s0 m0 s m) :
    Goes s0 m0 s (exitLoop d stop rounds start s) (exitLoop d stop rounds start (s.on m)) := by
  induction rounds generalizing s m start with
  | zero => exact Goes.refl h
  | succ rounds ih =>
    unfold exitLoop
    simp only
    have hv := exitEntry_goes (d := d) (PDX start) h
    split
    · apply hv.trans
      intro m1 h1 he
      rw [he]
      exact ih (start + PTSIZE) h1
    · exact hv

theorem rel_bind {α β γ δ : Type} {R : α → β → Prop} {S : γ → δ → Prop} {x : Option α}
    {y : Option β} {f : α → Option γ} {g : β → Option δ} (h : Option.Rel R x y)
    (hf : ∀ a b, R a b → Option.Rel S (f a) (g b)) : Option.Rel S (x.bind f) (y.bind g) := by
  cases h with
  | some h => exact hf _ _ h
  | none => exact .none

theorem Goes.rel (h : Goes s0 m0 s t t') {x x' : Option Frames}
    (hx : Option.Rel (Goes s0 m0 t) x x') : Option.Rel (Goes s0 m0 s) x x' := by
  cases hx with
  | some hu => exact .some ⟨hu.dirs.trans h.dirs, hu.same⟩
  | none => exact .none

/-- A pass over the areas. -/
theorem foldlM_goes {f : Frames → Vma → Option Frames}
    (hf : ∀ s m vma, Alike s0 m0 s m → d ∈ s.dirs →
      Option.Rel (Goes s0 m0 s) (f s vma) (f (s.on m) vma))
    (vmas : List Vma) (h : Alike s0 m0 s m) (hd : d ∈ s.dirs) :
    Option.Rel (Goes s0 m0 s) (vmas.foldlM f s) (vmas.foldlM f (s.on m)) := by
  induction vmas generalizing s m with
  | nil => exact .some (Goes.refl h)
  | cons vma vmas ih =>
    rw [List.foldlM_cons, List.foldlM_cons]
    apply rel_bind (hf s m vma h hd)
    intro v v' hv
    obtain ⟨m1, rfl, h1⟩ := hv.same
    exact hv.rel (ih h1 (by rw [hv.dirs]; exact hd))

theorem exit_mmap_goes (mm : Mm) (h : Alike s0 m0 s m) (hd : mm.pgdir ∈ s.dirs) :
    Option.Rel (Goes s0 m0 s) (exit_mmap A s mm) (exit_mmap A (s.on m) mm) := by
  unfold exit_mmap
  split
  · refine rel_bind (foldlM_goes ?_ mm.mmap_list h hd) ?_
    · intro s m vma h hd
      unfold unmap_range
      split
      · exact .some (unmapLoop_goes NPAGES vma.vm_start h hd)
      · exact .none
    · intro v v' hv
      obtain ⟨m1, rfl, h1⟩ := hv.same
      apply hv.rel
      refine foldlM_goes ?_ mm.mmap_list h1 (by rw [hv.dirs]; exact hd)
      intro s m vma h _
      unfold exit_range
      split
      · exact .some (exitLoop_goes NPAGES _ h)
      · exact .none
  · exact .none

theorem do_pgfault_goes {mm : Mm} (h : Alike s0 m0 s m) (hd : mm.pgdir ∈ s.dirs)
    (error_code : Nat) (addr : Word) :
    (do_pgfault A (s.on m) mm error_code addr).2 = (do_pgfault A s mm error_code addr).2 ∧
      Goes s0 m0 s (do_pgfault A s mm error_code addr).1
        (do_pgfault A (s.on m) mm error_code addr).1 ∧
      (do_pgfault A s mm error_code addr).2.1.pgdir = mm.pgdir := by
  have hpg : (nehcpu.kernel.find_vma mm addr).2.pgdir = mm.pgdir := by
    rw [find_vma_mm]
  unfold do_pgfault
  rcases hf : nehcpu.kernel.find_vma mm addr with ⟨found, mm1⟩
  rw [hf] at hpg
  simp only at hpg
  cases found with
  | none => exact ⟨rfl, Goes.refl h, hpg⟩
  | some vma =>
    simp only
    split
    · exact ⟨rfl, Goes.refl h, hpg⟩
    · rw [hpg]
      obtain ⟨hr, hg1, htab⟩ := get_pte_goes (A := A) h hd (ROUNDDOWN_2N addr PGSHIFT) true
      rcases hg : get_pte A s mm.pgdir (ROUNDDOWN_2N addr PGSHIFT) true with ⟨r, s1⟩
      rcases hg' : get_pte A (s.on m) mm.pgdir (ROUNDDOWN_2N addr PGSHIFT) true with ⟨r', s1'⟩
      rw [hg, hg'] at hr hg1
      rw [hg] at htab
      simp only at hr hg1 htab
      subst hr
      cases r' with
      | none => exact ⟨rfl, hg1, hpg⟩
      | some ptep =>
        obtain ⟨hd1, m1, rfl, h1⟩ := hg1
        simp only
        rw [h1.load (htab ptep rfl)]
        split
        · have hds : mm.pgdir ∈ s1.dirs := by
            rw [hd1]
            exact hd
          obtain ⟨hp, hd2, hs2⟩ := pgdir_alloc_page_goes (A := A) h1 hds
            (ROUNDDOWN_2N addr PGSHIFT) (areaPerm vma.vm_flags)
          rcases ha : pgdir_alloc_page A s1 mm.pgdir (ROUNDDOWN_2N addr PGSHIFT)
            (areaPerm vma.vm_flags) with ⟨p, s2⟩
          rcases ha' : pgdir_alloc_page A (s1.on m1) mm.pgdir (ROUNDDOWN_2N addr PGSHIFT)
            (areaPerm vma.vm_flags) with ⟨p', s2'⟩
          rw [ha, ha'] at hp hs2
          rw [ha] at hd2
          simp only at hp hs2 hd2
          subst hp
          cases p' with
          | none => exact ⟨rfl, ⟨hd2.trans hd1, hs2⟩, hpg⟩
          | some page => exact ⟨rfl, ⟨hd2.trans hd1, hs2⟩, hpg⟩
        · exact ⟨rfl, ⟨hd1, m1, rfl, h1⟩, hpg⟩

end
/-! ## The loader -/

def Loader.on (l : Loader) (m : Memory) : Loader := { l with pages := l.pages.on m }

/-- Two loaders of the memory with the directory `d`. -/
structure LoadersGo (s0 : Frames) (m0 : Memory) (d : Nat) (l l' : Loader) : Prop where
  live : d ∈ l.pages.dirs
  pgdir : l.mm.pgdir = d
  same : ∃ m, l' = l.on m ∧ Alike s0 m0 l.pages m

/-- Both parts go on, or both jump. -/
inductive PartsGo {α : Type} (s0 : Frames) (m0 : Memory) (d : Nat) (R : α → α → Prop) :
    Part α → Part α → Prop
  | next {a a' : α} : R a a' → PartsGo s0 m0 d R (.next a) (.next a')
  | bad_cleanup_mmap {l l' : Loader} (ret : Word) : LoadersGo s0 m0 d l l' →
      PartsGo s0 m0 d R (.bad_cleanup_mmap ret l) (.bad_cleanup_mmap ret l')

/-- The same values, and two loaders. -/
def WithLoader {β : Type} (s0 : Frames) (m0 : Memory) (d : Nat) (a a' : β × Loader) : Prop :=
  a'.1 = a.1 ∧ LoadersGo s0 m0 d a.2 a'.2

section

variable {A : Allocator} {F : File} {s0 : Frames} {m0 m : Memory} {d : Nat} {perm stop : Word}

theorem LoadersGo.on {l : Loader} (hl : d ∈ l.pages.dirs) (hp : l.mm.pgdir = d)
    (h : Alike s0 m0 l.pages m) : LoadersGo s0 m0 d l (l.on m) := ⟨hl, hp, m, rfl, h⟩

/-- A page more, with the same bytes in it. -/
theorem LoadersGo.filled {l : Loader} {frames frames' : Frames} (hl : d ∈ l.pages.dirs)
    (hp : l.mm.pgdir = d) (hg : Goes s0 m0 l.pages frames frames') (page : Page) (off : Nat)
    (bs : List Byte) (n : Nat) :
    LoadersGo s0 m0 d { l with pages := frames.putBytes page off bs, reads := n }
      { l with pages := frames'.putBytes page off bs, reads := n } := by
  obtain ⟨hd, m, rfl, h⟩ := hg
  obtain ⟨m', he, h'⟩ := h.putBytes page off bs
  refine ⟨?_, hp, m', ?_, h'⟩
  · show d ∈ (frames.putBytes page off bs).dirs
    rw [(putBytes_rest frames page off bs).1, hd]
    exact hl
  · rw [he]
    rfl

theorem fileLoop_goes (perm stop : Word) (rounds : Nat) (start la offset : Word) (page : Option Page) {l l' : Loader}
    (h : LoadersGo s0 m0 d l l') :
    Option.Rel (PartsGo s0 m0 d fun a a' => a'.1 = a.1 ∧ a'.2.1 = a.2.1 ∧
        WithLoader s0 m0 d a.2.2 a'.2.2)
      (fileLoop A F perm stop rounds start la offset page l)
      (fileLoop A F perm stop rounds start la offset page l') := by
  induction rounds generalizing start la offset page l l' with
  | zero => exact .none
  | succ rounds ih =>
    obtain ⟨hl, hp, m, rfl, hm⟩ := h
    unfold fileLoop
    split
    · obtain ⟨hr, hg⟩ := pgdir_alloc_page_goes (A := A) hm
        (by rw [hp]; exact hl : l.mm.pgdir ∈ l.pages.dirs) la perm
      have halloc : pgdir_alloc_page A (l.on m).pages (l.on m).mm.pgdir la perm =
          pgdir_alloc_page A (l.pages.on m) l.mm.pgdir la perm := rfl
      rw [halloc]
      rcases ha : pgdir_alloc_page A l.pages l.mm.pgdir la perm with ⟨r, frames⟩
      rcases ha' : pgdir_alloc_page A (l.pages.on m) l.mm.pgdir la perm with ⟨r', frames'⟩
      rw [ha, ha'] at hr hg
      simp only at hr hg
      subst hr
      cases r' with
      | none =>
        obtain ⟨hd, m1, rfl, h1⟩ := hg
        refine .some (.bad_cleanup_mmap _ ⟨?_, hp, m1, rfl, h1⟩)
        show d ∈ frames.dirs
        rw [hd]
        exact hl
      | some page =>
        have hnext := fun bs n => LoadersGo.filled hl hp hg page (start - la).toNat bs n
        simp only
        show Option.Rel _ _ (if (load_icode_read F l.reads
          (partSize (start - la) (la + PGSIZE) stop) offset).1 ≠ 0#32 then _ else _)
        split
        · exact .some (.bad_cleanup_mmap _ (hnext _ _))
        · exact ih _ _ _ _ (hnext _ _)
    · exact .some (.next ⟨rfl, rfl, rfl, hl, hp, m, rfl, hm⟩)

theorem zeroLoop_goes (rounds : Nat) (start la : Word) (page : Option Page) {l l' : Loader}
    (h : LoadersGo s0 m0 d l l') :
    Option.Rel (PartsGo s0 m0 d (WithLoader s0 m0 d)) (zeroLoop A perm stop rounds start la page l)
      (zeroLoop A perm stop rounds start la page l') := by
  induction rounds generalizing start la page l l' with
  | zero => exact .none
  | succ rounds ih =>
    obtain ⟨hl, hp, m, rfl, hm⟩ := h
    unfold zeroLoop
    split
    · obtain ⟨hr, hg⟩ := pgdir_alloc_page_goes (A := A) hm
        (by rw [hp]; exact hl : l.mm.pgdir ∈ l.pages.dirs) la perm
      have halloc : pgdir_alloc_page A (l.on m).pages (l.on m).mm.pgdir la perm =
          pgdir_alloc_page A (l.pages.on m) l.mm.pgdir la perm := rfl
      rw [halloc]
      rcases ha : pgdir_alloc_page A l.pages l.mm.pgdir la perm with ⟨r, frames⟩
      rcases ha' : pgdir_alloc_page A (l.pages.on m) l.mm.pgdir la perm with ⟨r', frames'⟩
      rw [ha, ha'] at hr hg
      simp only at hr hg
      subst hr
      cases r' with
      | none =>
        obtain ⟨hd, m1, rfl, h1⟩ := hg
        refine .some (.bad_cleanup_mmap _ ⟨?_, hp, m1, rfl, h1⟩)
        show d ∈ frames.dirs
        rw [hd]
        exact hl
      | some page =>
        exact ih _ _ _ (LoadersGo.filled hl hp hg page _ _ l.reads)
    · exact .some (.next ⟨rfl, hl, hp, m, rfl, hm⟩)

theorem clear_bss_goes (start la : Word) (page : Option Page) {l l' : Loader}
    (h : LoadersGo s0 m0 d l l') :
    Option.Rel (PartsGo s0 m0 d (WithLoader s0 m0 d)) (clear_bss A perm stop start la page l)
      (clear_bss A perm stop start la page l') := by
  unfold clear_bss
  split
  · split
    · exact .some (.next ⟨rfl, h⟩)
    · cases page with
      | none => exact .none
      | some page =>
        obtain ⟨hl, hp, m, rfl, hm⟩ := h
        unfold clearPart
        by_cases hassert : (stop < la ∧ start + partSize (start + PGSIZE - la) la stop = stop) ∨
            (la ≤ stop ∧ start + partSize (start + PGSIZE - la) la stop = la)
        · simp only [if_pos hassert]
          exact zeroLoop_goes NPAGES _ _ _ (LoadersGo.filled hl hp (Goes.refl hm) page _ _ l.reads)
        · simp only [if_neg hassert]
          exact .none
  · exact zeroLoop_goes NPAGES start la page h

theorem mm_map_pgdir {mm mm' : Mm} {addr len vm_flags : Word} {memory ok : Bool}
    (h : mm_map mm addr len vm_flags memory = some (mm', ok)) : mm'.pgdir = mm.pgdir := by
  have hpg : ∀ a, (nehcpu.kernel.find_vma mm a).2.pgdir = mm.pgdir := by
    intro a
    rw [find_vma_mm]
  unfold mm_map at h
  simp only at h
  split at h
  · obtain ⟨rfl, -⟩ := Prod.mk.inj (Option.some_inj.1 h)
    rfl
  · split at h
    · obtain ⟨rfl, -⟩ := Prod.mk.inj (Option.some_inj.1 h)
      exact hpg _
    · split at h
      · obtain ⟨rfl, -⟩ := Prod.mk.inj (Option.some_inj.1 h)
        exact hpg _
      · split at h
        · cases h
        · obtain ⟨rfl, -⟩ := Prod.mk.inj (Option.some_inj.1 h)
          exact hpg _

theorem map_area_goes (addr len vm_flags : Word) {l l' : Loader} (h : LoadersGo s0 m0 d l l') :
    Option.Rel (PartsGo s0 m0 d (LoadersGo s0 m0 d)) (map_area A addr len vm_flags l)
      (map_area A addr len vm_flags l') := by
  obtain ⟨hl, hp, m, rfl, hm⟩ := h
  unfold map_area
  have hnew : mm_map (l.on m).mm addr len vm_flags (A.memory (l.on m).pages.tick) =
      mm_map l.mm addr len vm_flags (A.memory l.pages.tick) := rfl
  rw [hnew]
  rcases hmap : mm_map l.mm addr len vm_flags (A.memory l.pages.tick) with _ | ⟨mm, ok⟩
  · exact .none
  · have hpg := mm_map_pgdir hmap
    have hm' : Alike s0 m0 { l.pages with tick := l.pages.tick + 1 } m :=
      hm.of_mem rfl fun _ => id
    simp only
    split
    · exact .some (.next ⟨hl, hpg.trans hp, m, rfl, hm'⟩)
    · exact .some (.bad_cleanup_mmap _ ⟨hl, hpg.trans hp, m, rfl, hm'⟩)

theorem load_segment_goes (ph : Proghdr) (page : Option Page) {l l' : Loader}
    (h : LoadersGo s0 m0 d l l') :
    Option.Rel (PartsGo s0 m0 d (WithLoader s0 m0 d)) (load_segment A F ph page l)
      (load_segment A F ph page l') := by
  unfold load_segment
  split
  · exact .some (.bad_cleanup_mmap _ h)
  · have hmap := map_area_goes (A := A) ph.p_va ph.p_memsz (segFlags ph) h
    revert hmap
    generalize map_area A ph.p_va ph.p_memsz (segFlags ph) l = r
    generalize map_area A ph.p_va ph.p_memsz (segFlags ph) l' = r'
    rintro (⟨h1 | ⟨ret, h1⟩⟩ | _)
    · have hfile := fileLoop_goes (A := A) (F := F) (areaPerm (segFlags ph))
        (ph.p_va + ph.p_filesz) NPAGES ph.p_va (ROUNDDOWN_2N ph.p_va PGSHIFT) ph.p_offset
        page h1
      simp only
      revert hfile
      generalize fileLoop A F (areaPerm (segFlags ph)) (ph.p_va + ph.p_filesz) NPAGES ph.p_va
        (ROUNDDOWN_2N ph.p_va PGSHIFT) ph.p_offset page _ = q
      generalize fileLoop A F (areaPerm (segFlags ph)) (ph.p_va + ph.p_filesz) NPAGES ph.p_va
        (ROUNDDOWN_2N ph.p_va PGSHIFT) ph.p_offset page _ = q'
      rintro (⟨h2 | ⟨ret, h2⟩⟩ | _)
      · rename_i a a'
        obtain ⟨start, la, page2, l2⟩ := a
        obtain ⟨start', la', page2', l2'⟩ := a'
        obtain ⟨rfl, rfl, rfl, h3⟩ := h2
        exact clear_bss_goes _ _ _ h3
      · exact .some (.bad_cleanup_mmap _ h2)
      · exact .none
    · exact .some (.bad_cleanup_mmap _ h1)
    · exact .none

theorem loadHeaders_goes (elf : Elfhdr) (left : Nat) (page : Option Page) {l l' : Loader}
    (h : LoadersGo s0 m0 d l l') :
    Option.Rel (PartsGo s0 m0 d (LoadersGo s0 m0 d)) (loadHeaders A F elf left page l)
      (loadHeaders A F elf left page l') := by
  induction left generalizing page l l' with
  | zero => exact .some (.next h)
  | succ left ih =>
    have h1 : LoadersGo s0 m0 d { l with reads := l.reads + 1 } { l' with reads := l'.reads + 1 } := by
      obtain ⟨hl, hp, m, rfl, hm⟩ := h
      exact ⟨hl, hp, m, rfl, hm⟩
    have hreads : l'.reads = l.reads := by
      obtain ⟨-, -, m, rfl, -⟩ := h
      rfl
    unfold loadHeaders
    simp only
    rw [hreads] at h1 ⊢
    obtain ⟨read, hread⟩ : ∃ read, read = load_icode_read F l.reads PROGHDR_SIZE (elf.e_phoff +
        PROGHDR_SIZE * BitVec.ofNat 32 (elf.e_phnum.toNat - (left + 1))) := ⟨_, rfl⟩
    rw [← hread]
    split
    · exact .some (.bad_cleanup_mmap _ h1)
    · split
      · exact ih page h1
      · have hseg := load_segment_goes (A := A) (F := F) (proghdr read.2) page h1
        revert hseg
        generalize load_segment A F (proghdr read.2) page { l with reads := l.reads + 1 } = r
        generalize load_segment A F (proghdr read.2) page { l' with reads := l.reads + 1 } = r'
        rintro (⟨h2 | ⟨ret, h2⟩⟩ | _)
        · rename_i a a'
          obtain ⟨page2, l2⟩ := a
          obtain ⟨page2', l2'⟩ := a'
          obtain ⟨rfl, h3⟩ := h2
          exact ih _ h3
        · exact .some (.bad_cleanup_mmap _ h2)
        · exact .none

theorem loadAreas_goes (elf : Elfhdr) {l l' : Loader} (h : LoadersGo s0 m0 d l l') :
    Option.Rel (PartsGo s0 m0 d (LoadersGo s0 m0 d)) (loadAreas A F elf l)
      (loadAreas A F elf l') := by
  have hheaders := loadHeaders_goes (A := A) (F := F) elf elf.e_phnum.toNat none h
  unfold loadAreas
  revert hheaders
  generalize loadHeaders A F elf elf.e_phnum.toNat none l = r
  generalize loadHeaders A F elf elf.e_phnum.toNat none l' = r'
  rintro (⟨h2 | ⟨ret, h2⟩⟩ | _)
  · exact map_area_goes _ _ _ h2
  · exact .some (.bad_cleanup_mmap _ h2)
  · exact .none

theorem userPage_goes (va : Word) {l l' : Loader} (h : LoadersGo s0 m0 d l l') :
    Option.Rel (WithLoader s0 m0 d) (userPage A va l) (userPage A va l') := by
  obtain ⟨hl, hp, m, rfl, hm⟩ := h
  have hlive : l.mm.pgdir ∈ l.pages.dirs := by
    rw [hp]
    exact hl
  have hpte : (l.on m).pages.pte (l.on m).mm.pgdir va = l.pages.pte l.mm.pgdir va :=
    hm.pte hlive va
  unfold userPage
  simp only
  rw [hpte]
  split
  · obtain ⟨hr, hg, hpg⟩ := do_pgfault_goes (A := A) hm hlive
      (get_error_code true (l.pages.pte l.mm.pgdir va)) va
    have hfault : do_pgfault A (l.on m).pages (l.on m).mm
        (get_error_code true (l.pages.pte l.mm.pgdir va)) va =
          do_pgfault A (l.pages.on m) l.mm (get_error_code true (l.pages.pte l.mm.pgdir va)) va := rfl
    rw [hfault]
    rcases he : do_pgfault A l.pages l.mm (get_error_code true (l.pages.pte l.mm.pgdir va)) va
      with ⟨frames, mm, ok⟩
    rcases he' : do_pgfault A (l.pages.on m) l.mm
      (get_error_code true (l.pages.pte l.mm.pgdir va)) va with ⟨frames', mm', ok'⟩
    rw [he, he'] at hr hg
    rw [he] at hpg
    obtain ⟨rfl, rfl⟩ := Prod.mk.inj hr
    obtain ⟨hd, m1, rfl, h1⟩ := hg
    simp only at hd h1 hpg
    cases ok' with
    | false => exact .none
    | true =>
      have hpd : mm'.pgdir ∈ frames.dirs := by
        rw [hpg, hd]
        exact hlive
      refine .some ⟨?_, ?_, hpg.trans hp, m1, rfl, h1⟩
      · show pte2page ((frames.on m1).pte mm'.pgdir va) = pte2page (frames.pte mm'.pgdir va)
        rw [h1.pte hpd va]
      · show d ∈ frames.dirs
        rw [hd]
        exact hl
  · split
    · exact .some ⟨rfl, hl, hp, m, rfl, hm⟩
    · exact .none

theorem storeByte_goes (va : Word) (b : Byte) {l l' : Loader} (h : LoadersGo s0 m0 d l l') :
    Option.Rel (LoadersGo s0 m0 d) (storeByte A va b l) (storeByte A va b l') := by
  have hpage := userPage_goes (A := A) va h
  unfold storeByte
  revert hpage
  generalize userPage A va l = r
  generalize userPage A va l' = r'
  rintro (hw | _)
  · rename_i a a'
    obtain ⟨page, l1⟩ := a
    obtain ⟨page', l1'⟩ := a'
    obtain ⟨rfl, hl, hp, m, hs, hm⟩ := hw
    simp only at hl hp hs hm
    subst hs
    obtain ⟨m1, he, h1⟩ := hm.putByte page' (va.toNat % 4096) b
    refine .some ⟨hl, hp, m1, ?_, h1⟩
    show ({ l1 with pages := (l1.pages.on m).putByte page' (va.toNat % 4096) b } : Loader) = _
    rw [he]
    rfl
  · exact .none

theorem storeAll_goes (stores : List (Word × Byte)) {l l' : Loader} (h : LoadersGo s0 m0 d l l') :
    Option.Rel (LoadersGo s0 m0 d) (storeAll A stores l) (storeAll A stores l') := by
  induction stores generalizing l l' with
  | nil => exact .some h
  | cons x stores ih =>
    obtain ⟨va, b⟩ := x
    exact rel_bind (storeByte_goes va b h) fun _ _ h1 => ih h1

end
/-! ## `load_icode` and the end of a memory -/

/-- The same result, with the same words but for those that are stale. -/
inductive LoadedGo (s0 : Frames) (m0 : Memory) : Loaded → Loaded → Prop
  | fails (ret : Word) (heap : Nat) {s : Frames} {m : Memory} : Alike s0 m0 s m →
      LoadedGo s0 m0 (.fails ret s heap) (.fails ret (s.on m) heap)
  | runs (tf : trap.Trapframe) {l : Loader} {m : Memory} : Alike s0 m0 l.pages m →
      LoadedGo s0 m0 (.runs tf l) (.runs tf (l.on m))
  | faults : LoadedGo s0 m0 .faults .faults

section

variable {A : Allocator} {F : File} {s0 s : Frames} {m0 m : Memory} {d : Nat}

theorem Alike.setup_pgdir (h : Alike s0 m0 s m) (d : Nat) : Alike s0 m0 (setup_pgdir s d) m := by
  refine h.of_mem (t := frames.setup_pgdir s d) rfl ?_
  rintro p ⟨d', hd', i, hi, ht⟩
  have ht' : entryPage (update s.pgdirs d (fun _ => 0#32) d' i) = some p := ht
  rw [update_apply] at ht'
  split at ht'
  · rw [entryPage_zero] at ht'
    cases ht'
  · next hne => exact ⟨d', (Finset.mem_insert.1 hd').resolve_left hne, i, hi, ht'⟩

theorem Alike.put_pgdir (h : Alike s0 m0 s m) (mm : Mm) : Alike s0 m0 (put_pgdir s mm) m := by
  refine h.of_mem (t := frames.put_pgdir s mm) rfl ?_
  rintro p ⟨d', hd', hi⟩
  exact ⟨d', Finset.mem_of_mem_erase hd', hi⟩

theorem cleanup_pgdir_goes (ret : Word) (mm : Mm) (heap : Nat) (h : Alike s0 m0 s m) :
    Option.Rel (LoadedGo s0 m0) (cleanup_pgdir ret s mm heap) (cleanup_pgdir ret (s.on m) mm heap) := by
  unfold cleanup_pgdir
  rcases mm_destroy mm heap with _ | heap'
  · exact .none
  · exact .some (.fails ret heap' (h.put_pgdir mm))

theorem cleanup_mmap_goes (ret : Word) {l l' : Loader} (h : LoadersGo s0 m0 d l l') :
    Option.Rel (LoadedGo s0 m0) (cleanup_mmap A ret l) (cleanup_mmap A ret l') := by
  obtain ⟨hl, hp, m, rfl, hm⟩ := h
  have hlive : l.mm.pgdir ∈ l.pages.dirs := by
    rw [hp]
    exact hl
  unfold cleanup_mmap
  apply rel_bind (exit_mmap_goes l.mm hm hlive)
  rintro t t' ⟨-, m1, rfl, h1⟩
  exact cleanup_pgdir_goes ret l.mm l.heap h1

theorem startProgram_goes (elf : Elfhdr) (status : Word) (kargv : List (List Byte)) {l l' : Loader}
    (h : LoadersGo s0 m0 d l l') :
    LoadedGo s0 m0 (startProgram A elf status kargv l) (startProgram A elf status kargv l') := by
  have h1 : LoadersGo s0 m0 d { l with mm := { l.mm with mm_count := l.mm.mm_count + 1 } }
      { l' with mm := { l'.mm with mm_count := l'.mm.mm_count + 1 } } := by
    obtain ⟨hl, hp, m, rfl, hm⟩ := h
    exact ⟨hl, hp, m, rfl, hm⟩
  have hstores := storeAll_goes (A := A) (argStores (argTop kargv.length) (argArray kargv.length) 0
    kargv) h1
  unfold startProgram
  simp only
  rw [storeArgs_eq, storeArgs_eq]
  revert hstores
  generalize storeAll A (argStores (argTop kargv.length) (argArray kargv.length) 0 kargv)
    { l with mm := { l.mm with mm_count := l.mm.mm_count + 1 } } = r
  generalize storeAll A (argStores (argTop kargv.length) (argArray kargv.length) 0 kargv)
    { l' with mm := { l'.mm with mm_count := l'.mm.mm_count + 1 } } = r'
  rintro (⟨-, -, m, rfl, hm⟩ | _)
  · exact .runs _ hm
  · exact .faults

theorem load_icode_goes (newdir : Option Nat) (status : Word) (kargv : List (List Byte))
    (heap : Nat) (h : Alike s0 m0 s m) :
    Option.Rel (LoadedGo s0 m0) (load_icode A F newdir status kargv s heap)
      (load_icode A F newdir status kargv (s.on m) heap) := by
  have htick : Alike s0 m0 { s with tick := s.tick + 1 } m := h.of_mem rfl fun _ => id
  unfold load_icode
  show Option.Rel _ _ (if A.memory s.tick = false then _ else _)
  split
  · exact .some (.fails _ heap htick)
  · cases newdir with
    | none => exact .some (.fails _ heap htick)
    | some d =>
      have hsetup := htick.setup_pgdir d
      simp only
      split
      · exact cleanup_pgdir_goes _ _ _ hsetup
      · split
        · exact cleanup_pgdir_goes _ _ _ hsetup
        · have hareas := loadAreas_goes (A := A) (F := F)
            (_load_elfhdr (load_icode_read F 0 ELFHDR_SIZE 0#32).2)
            (LoadersGo.on (l := ⟨setup_pgdir { s with tick := s.tick + 1 } d, mm_create d,
              heap + 1, 1⟩) (Finset.mem_insert_self d s.dirs) rfl hsetup)
          revert hareas
          generalize loadAreas A F (_load_elfhdr (load_icode_read F 0 ELFHDR_SIZE 0#32).2)
            ⟨setup_pgdir { s with tick := s.tick + 1 } d, mm_create d, heap + 1, 1⟩ = r
          have hon : (⟨setup_pgdir { s.on m with tick := (s.on m).tick + 1 } d, mm_create d, heap + 1,
              1⟩ : Loader) = Loader.on ⟨setup_pgdir { s with tick := s.tick + 1 } d, mm_create d,
                heap + 1, 1⟩ m := rfl
          rw [hon]
          generalize loadAreas A F (_load_elfhdr (load_icode_read F 0 ELFHDR_SIZE 0#32).2)
            (Loader.on ⟨setup_pgdir { s with tick := s.tick + 1 } d, mm_create d, heap + 1, 1⟩ m) = r'
          rintro (⟨h2 | ⟨ret, h2⟩⟩ | _)
          · exact .some (startProgram_goes _ status kargv h2)
          · exact cleanup_mmap_goes ret h2
          · exact .none

/-- What the old memory leaves. -/
theorem leaveMemory_goes (mm : Mm) (heap : Nat) (h : Alike s0 m0 s m) (hd : mm.pgdir ∈ s.dirs) :
    Option.Rel (fun x x' => x'.2 = x.2 ∧ ∃ m1, x'.1 = x.1.on m1 ∧ Alike s0 m0 x.1 m1)
      (leaveMemory A s (some mm) heap) (leaveMemory A (s.on m) (some mm) heap) := by
  unfold leaveMemory
  simp only
  split
  · have hexit := exit_mmap_goes (A := A) { mm with mm_count := mm.mm_count - 1 } h hd
    revert hexit
    generalize exit_mmap A s { mm with mm_count := mm.mm_count - 1 } = r
    generalize exit_mmap A (s.on m) { mm with mm_count := mm.mm_count - 1 } = r'
    rintro (⟨-, m1, rfl, h1⟩ | _)
    · simp only
      rcases mm_destroy { mm with mm_count := mm.mm_count - 1 } heap with _ | heap'
      · exact .none
      · exact .some ⟨rfl, m1, rfl, h1.put_pgdir _⟩
    · exact .none
  · exact .some ⟨rfl, m, rfl, h⟩

end
/-! ## Runs -/

/-- The frames, the memories of the processes, and the structures of `kmalloc` in use. -/
structure Memories where
  pages : Frames
  mms : Nat → Option Mm
  heap : Nat

def Memories.on (k : Memories) (m : Memory) : Memories := { k with pages := k.pages.on m }

/-- Page faults of a memory, the end of one, and `load_icode`, which makes one. -/
inductive MemoryOp
  | do_pgfault (i error_code : Nat) (addr : Word)
  | leave (i : Nat)
  | load_icode (i : Nat) (F : File) (newdir : Option Nat) (status : Word) (kargv : List (List Byte))

/-- One step. There is none without the memory, or with one that is there already, and none where
the machine stands still. -/
def MemoryOp.step (A : Allocator) (k : Memories) : MemoryOp → Option Memories
  | .do_pgfault i error_code addr =>
    match k.mms i with
    | none => none
    | some mm =>
      if mm.pgdir ∈ k.pages.dirs then
        let (frames, mm, _) := frames.do_pgfault A k.pages mm error_code addr
        some { k with pages := frames, mms := update k.mms i (some mm) }
      else none
  | .leave i =>
    match k.mms i with
    | none => none
    | some mm =>
      if mm.pgdir ∈ k.pages.dirs then
        let left := if mm.mm_count = 1 then none else some { mm with mm_count := mm.mm_count - 1 }
        (leaveMemory A k.pages (some mm) k.heap).map fun (frames, heap) =>
          ⟨frames, update k.mms i left, heap⟩
      else none
  | .load_icode i F newdir status kargv =>
    match k.mms i with
    | some _ => none
    | none =>
      match frames.load_icode A F newdir status kargv k.pages k.heap with
      | none => none
      | some .faults => none
      | some (.fails _ frames heap) => some { k with pages := frames, heap := heap }
      | some (.runs _ s) => some ⟨s.pages, update k.mms i (some s.mm), s.heap⟩

/-- All is the same but for stale bytes. -/
def MemoriesGo (s0 : Frames) (m0 : Memory) (k k' : Memories) : Prop :=
  ∃ m, k' = k.on m ∧ Alike s0 m0 k.pages m

section

variable {A : Allocator} {s0 : Frames} {m0 m : Memory} {k : Memories}

theorem step_goes (h : Alike s0 m0 k.pages m) (op : MemoryOp) :
    Option.Rel (MemoriesGo s0 m0) (op.step A k) (op.step A (k.on m)) := by
  have hmms : (k.on m).mms = k.mms := rfl
  have hdirs : (k.on m).pages.dirs = k.pages.dirs := rfl
  cases op with
  | do_pgfault i error_code addr =>
    simp only [MemoryOp.step, hmms, hdirs]
    rcases k.mms i with _ | mm
    · exact .none
    · simp only
      split
      · next hd =>
        obtain ⟨hr, ⟨-, m1, hs, h1⟩, -⟩ := do_pgfault_goes (A := A) h hd error_code addr
        refine .some ⟨m1, ?_, h1⟩
        show (⟨(do_pgfault A (k.pages.on m) mm error_code addr).1, update k.mms i
          (some (do_pgfault A (k.pages.on m) mm error_code addr).2.1), k.heap⟩ : Memories) = _
        rw [hs, hr]
        rfl
      · exact .none
  | leave i =>
    simp only [MemoryOp.step, hmms, hdirs]
    rcases k.mms i with _ | mm
    · exact .none
    · simp only
      split
      · next hd =>
        have hleave := leaveMemory_goes (A := A) mm k.heap h hd
        show Option.Rel _ _ ((leaveMemory A (k.pages.on m) (some mm) k.heap).map _)
        revert hleave
        generalize leaveMemory A k.pages (some mm) k.heap = r
        generalize leaveMemory A (k.pages.on m) (some mm) k.heap = r'
        rintro (⟨he, m1, hs, h1⟩ | _)
        · rename_i a a'
          obtain ⟨frames, heap⟩ := a
          obtain ⟨frames', heap'⟩ := a'
          simp only at he hs h1
          subst he hs
          exact .some ⟨m1, rfl, h1⟩
        · exact .none
      · exact .none
  | load_icode i F newdir status kargv =>
    simp only [MemoryOp.step, hmms]
    rcases k.mms i with _ | mm
    · have hload := load_icode_goes (A := A) (F := F) newdir status kargv k.heap h
      have hpages : (k.on m).pages = k.pages.on m := rfl
      have hheap : (k.on m).heap = k.heap := rfl
      simp only [hpages, hheap]
      revert hload
      generalize load_icode A F newdir status kargv k.pages k.heap = r
      generalize load_icode A F newdir status kargv (k.pages.on m) k.heap = r'
      rintro (hl | _)
      · cases hl with
        | fails ret heap h1 => exact .some ⟨_, rfl, h1⟩
        | runs tf h1 => exact .some ⟨_, rfl, h1⟩
        | faults => exact .none
      · exact .none
    · exact .none

/-- The run of the other machine. -/
theorem run_goes {ops : List MemoryOp} {k1 : Memories} (h : Alike s0 m0 k.pages m)
    (hrun : ops.foldlM (MemoryOp.step A) k = some k1) :
    ∃ m1, ops.foldlM (MemoryOp.step A) (k.on m) = some (k1.on m1) ∧
      Alike s0 m0 k1.pages m1 := by
  induction ops generalizing k m with
  | nil =>
    obtain rfl := Option.some_inj.1 hrun
    exact ⟨m, rfl, h⟩
  | cons op ops ih =>
    rw [List.foldlM_cons] at hrun
    obtain ⟨k2, hk2, hrest⟩ := Option.bind_eq_some_iff.1 hrun
    have hstep := step_goes (A := A) h op
    rw [hk2] at hstep
    generalize hk2' : op.step A (k.on m) = r at hstep
    cases hstep with
    | some hgo =>
      obtain ⟨m2, rfl, h2⟩ := hgo
      obtain ⟨m1, he, h1⟩ := ih h2 hrest
      refine ⟨m1, ?_, h1⟩
      rw [List.foldlM_cons, hk2']
      exact he

end

/-- For every run: with other words in the free frames it goes the same way, to the same mappings,
areas and counts. A byte that a program can read there is the same, or it is what stood in its frame
when that was free. -/
theorem fresh_pages (A : Allocator) (k k1 : Memories) (m : Memory) (ops : List MemoryOp)
    (hset : Settled k.pages) (hm : ∀ p, k.pages.free p = false → m p = k.pages.mem p)
    (hrun : ops.foldlM (MemoryOp.step A) k = some k1) :
    ∃ m1, ops.foldlM (MemoryOp.step A) (k.on m) = some (k1.on m1) ∧
      ∀ d ∈ k1.pages.dirs, ∀ va, (k1.pages.on m1).pte d va = k1.pages.pte d va ∧
        ((k1.pages.on m1).userByte d va = k1.pages.userByte d va ∨
          ∃ page, entryPage (k1.pages.pte d va) = some page ∧
            Stale k.pages m k1.pages m1 page (va.toNat % 4096)) := by
  obtain ⟨m1, he, h1⟩ := run_goes (Alike.begin hset hm) hrun
  refine ⟨m1, he, ?_⟩
  intro d hd va
  have hpte := h1.pte hd va
  refine ⟨hpte, ?_⟩
  unfold Frames.userByte
  rw [hpte]
  rcases hp : entryPage (k1.pages.pte d va) with _ | page
  · exact Or.inl rfl
  · rw [Option.map_some, Option.map_some]
    rcases h1.bytes page (va.toNat % 4096) with hb | hb
    · exact Or.inl (congrArg some hb)
    · exact Or.inr ⟨page, rfl, hb⟩

/-! ## A page fault -/

/-- One process with one area, where no page is mapped yet. -/
def firstProcess : Memories :=
  ⟨setup_pgdir emptyMemory 0, fun i => if i = 0 then some firstArea else none, 1⟩

theorem firstProcess_ok : Settled firstProcess.pages :=
  (setup_pgdir_spec (boot_settled _ _ _) (Finset.notMem_empty 0)).1

def faultOps : List MemoryOp := [.do_pgfault 0 2 USERBASE]

theorem fresh_pages_fault : ∃ k1 m1,
    faultOps.foldlM (MemoryOp.step eightPages) firstProcess = some k1 ∧
      faultOps.foldlM (MemoryOp.step eightPages) (firstProcess.on fun _ _ => 0x61616161#32) =
        some (k1.on m1) := by
  have hruns : (faultOps.foldlM (MemoryOp.step eightPages) firstProcess).isSome = true := by
    decide +kernel
  obtain ⟨k1, hk1⟩ := Option.isSome_iff_exists.1 hruns
  obtain ⟨m1, he, -⟩ := fresh_pages eightPages firstProcess k1 (fun _ _ => 0x61616161#32) faultOps
    firstProcess_ok (fun p hp => nomatch hp) hk1
  exact ⟨k1, m1, hk1, he⟩

/-- The process reads what stood in the page before. -/
theorem fresh_pages_leak : ¬ ∀ (A : Allocator) (k k1 k1' : Memories) (m : Memory)
    (ops : List MemoryOp), Settled k.pages →
    (∀ p, k.pages.free p = false → m p = k.pages.mem p) →
    ops.foldlM (MemoryOp.step A) k = some k1 → ops.foldlM (MemoryOp.step A) (k.on m) = some k1' →
      ∀ d ∈ k1.pages.dirs, ∀ va, k1'.pages.userByte d va = k1.pages.userByte d va := by
  intro h
  have hread : ((faultOps.foldlM (MemoryOp.step eightPages) firstProcess).map fun k =>
      (decide (0 ∈ k.pages.dirs), k.pages.userByte 0 USERBASE)) = some (true, some 0#8) := by
    decide +kernel
  have hread' : ((faultOps.foldlM (MemoryOp.step eightPages)
      (firstProcess.on fun _ _ => 0x61616161#32)).map fun k => k.pages.userByte 0 USERBASE) =
        some (some 0x61#8) := by
    decide +kernel
  obtain ⟨k1, hk1, hv⟩ := Option.map_eq_some_iff.1 hread
  obtain ⟨k1', hk1', hv'⟩ := Option.map_eq_some_iff.1 hread'
  obtain ⟨hd, hb⟩ := Prod.mk.inj hv
  have hsame := h eightPages firstProcess k1 k1' (fun _ _ => 0x61616161#32) faultOps firstProcess_ok
    (fun p hp => nomatch hp) hk1 hk1' 0 (of_decide_eq_true hd) USERBASE
  rw [hb, hv'] at hsame
  exact absurd hsame (by decide)

end nehcpu.kernel.frames
