-- The reference counts of the frames: `ref` counts the entries that map a page, beside the
-- references that the running code holds for a moment.
import Nehcpu.Lib.Machine
import Nehcpu.Kernel.Frames
import Nehcpu.Kernel.PageEdits

namespace nehcpu.kernel.frames

open cpu refcount Function machine

/-! ## Entries -/

theorem PDX_lt (la : Word) : PDX la < 1024 := by
  unfold PDX
  exact BitVec.isLt _

theorem PTX_lt (la : Word) : PTX la < 1024 := by
  unfold PTX
  exact BitVec.isLt _

theorem toNat_page2pa (page : Page) : (page2pa page).toNat = page.toNat * 4096 := by
  unfold page2pa
  rw [BitVec.toNat_append, BitVec.toNat_zero, Nat.or_zero, Nat.shiftLeft_eq]

/-- An entry made of a page and bits below the page number. -/
theorem entryPage_or (page : Page) {bits : Word} (hp : bits &&& PTE_P ≠ 0#32)
    (hlt : bits < PGSIZE) : entryPage (page2pa page ||| bits) = some page := by
  have hlow : bits.extractLsb' 12 20 = 0#20 := by
    apply BitVec.eq_of_toNat_eq
    have h : bits.toNat < 4096 := hlt
    rw [BitVec.extractLsb'_toNat, Nat.shiftRight_eq_div_pow, Nat.div_eq_of_lt h]
    rfl
  have hpage : (page2pa page).extractLsb' 12 20 = page := by
    apply BitVec.eq_of_toNat_eq
    have h := page.isLt
    rw [BitVec.extractLsb'_toNat, toNat_page2pa, Nat.shiftRight_eq_div_pow]
    omega
  have hbit : page2pa page &&& PTE_P = 0#32 := by
    apply BitVec.eq_of_toNat_eq
    rw [BitVec.toNat_and, toNat_page2pa]
    show _ &&& 1 = 0
    rw [Nat.and_one_is_mod]
    omega
  unfold entryPage ptep_present pte2page
  rw [if_pos, BitVec.extractLsb'_or, hlow, hpage, BitVec.or_zero]
  rw [BitVec.and_or_distrib_right, hbit, BitVec.zero_or]
  simpa using hp

/-- The entry that `page_insert` writes. -/
theorem entryPage_insert (page : Page) {perm : Word} (hlt : perm < PGSIZE) :
    entryPage (page2pa page ||| PTE_P ||| perm) = some page := by
  rw [BitVec.or_assoc]
  apply entryPage_or
  · intro hz
    have hbit := congrArg (fun w : Word => w[0]) hz
    simp at hbit
  · show (PTE_P ||| perm).toNat < 4096
    rw [BitVec.toNat_or]
    exact Nat.or_lt_two_pow (n := 12) (by decide) hlt

@[simp] theorem entryPage_zero : entryPage 0#32 = none := rfl

theorem entryPage_eq_some {entry : Word} {page : Page} :
    entryPage entry = some page ↔ ptep_present entry = true ∧ pte2page entry = page := by
  unfold entryPage
  split
  · next h => rw [Option.some_inj, and_iff_right h]
  · next h => exact ⟨fun he => (Option.some_ne_none _ he.symm).elim, fun he => absurd he.1 h⟩

/-! ## Slots -/

theorem mem_slots (s : Frames) (d i j : Nat) :
    (d, i, j) ∈ s.slots ↔ d ∈ s.dirs ∧ i < 1024 ∧ j < 1024 := by
  unfold Frames.slots
  rw [Finset.mem_product, Finset.mem_product, Finset.mem_range, Finset.mem_range]

theorem load_store (s : Frames) (ptep ptep' : PtePtr) (pte : pte_t) :
    (s.store ptep pte).load ptep' = if ptep' = ptep then pte else s.load ptep' := by
  unfold Frames.load Frames.store
  obtain ⟨t, i⟩ := ptep
  obtain ⟨t', i'⟩ := ptep'
  simp only [update_apply, PtePtr.mk.injEq]
  by_cases ht : t' = t
  · subst ht
    simp only [if_true, true_and, update_apply]
  · simp only [ht, if_false, false_and]

/-- The pointer to the entry of an address. -/
structure IsPte (s : Frames) (d : Nat) (la : Word) (ptep : PtePtr) : Prop where
  dir : d ∈ s.dirs
  table : s.table d (PDX la) = some ptep.table
  index : ptep.index = PTX la

/-- A page table belongs to one directory entry. -/
def Distinct (s : Frames) : Prop :=
  ∀ {d i d' i' : Nat} {t : Page}, d ∈ s.dirs → i < 1024 → d' ∈ s.dirs → i' < 1024 →
    s.table d i = some t → s.table d' i' = some t → d = d' ∧ i = i'

theorem maps_store {s : Frames} (h : Distinct s) {d : Nat} {la : Word} {ptep : PtePtr}
    (hp : IsPte s d la ptep) (pte : pte_t) {k : Slot} (hk : k ∈ s.slots) :
    (s.store ptep pte).maps k = if k = (d, PDX la, PTX la) then entryPage pte else s.maps k := by
  obtain ⟨d', i', j'⟩ := k
  obtain ⟨hd', hi', hj'⟩ := (mem_slots s d' i' j').1 hk
  have htab : (s.store ptep pte).table = s.table := rfl
  unfold Frames.maps
  rw [htab]
  rcases ht : s.table d' i' with _ | t
  · rw [Option.bind_none, Option.bind_none, if_neg]
    intro he
    simp only [Prod.mk.injEq] at he
    rw [he.1, he.2.1, hp.table] at ht
    cases ht
  · rw [Option.bind_some, Option.bind_some, load_store]
    by_cases hq : (⟨t, j'⟩ : PtePtr) = ptep
    · have htt : s.table d' i' = some ptep.table := by rw [ht, ← hq]
      obtain ⟨rfl, rfl⟩ := h hd' hi' hp.dir (PDX_lt la) htt hp.table
      have hj : j' = PTX la := by
        rw [← hp.index, ← hq]
      rw [if_pos hq, if_pos (by rw [hj])]
    · rw [if_neg hq, if_neg]
      intro he
      simp only [Prod.mk.injEq] at he
      obtain ⟨rfl, rfl, rfl⟩ := he
      apply hq
      have hpt := ht.symm.trans hp.table
      rw [Option.some_inj.1 hpt, ← hp.index]

theorem maps_pte {s : Frames} {d : Nat} {la : Word} {ptep : PtePtr} (hp : IsPte s d la ptep) :
    s.maps (d, PDX la, PTX la) = entryPage (s.load ptep) := by
  unfold Frames.maps
  rw [hp.table, Option.bind_some, ← hp.index]

theorem IsPte.mem_slots {s : Frames} {d : Nat} {la : Word} {ptep : PtePtr}
    (hp : IsPte s d la ptep) : (d, PDX la, PTX la) ∈ s.slots :=
  (frames.mem_slots s _ _ _).2 ⟨hp.dir, PDX_lt la, PTX_lt la⟩

/-- A store moves one reference. -/
theorem count_store {s : Frames} (h : Distinct s) {d : Nat} {la : Word} {ptep : PtePtr}
    (hp : IsPte s d la ptep) (pte : pte_t) (page : Page) :
    (s.store ptep pte).count page + holds (entryPage (s.load ptep)) page =
      s.count page + holds (entryPage pte) page := by
  have hslots : (s.store ptep pte).slots = s.slots := rfl
  have hset := refs_set (f := s.maps) (g := (s.store ptep pte).maps) hp.mem_slots ?_ page
  · rw [maps_store h hp pte hp.mem_slots, if_pos rfl, maps_pte hp] at hset
    unfold Frames.count
    rw [hslots]
    exact hset
  · intro k hk hne
    rw [maps_store h hp pte hk, if_neg hne]

/-! ## The counts -/

/-- Every page table has one reference and no entry maps it, and `ref` of any other page counts
the entries that map it and what the code holds. Free pages have none. -/
structure RefsOk (held : Page → Int) (s : Frames) : Prop where
  distinct : Distinct s
  table : ∀ {t}, s.IsTable t → s.ref t = 1 ∧ s.free t = false ∧ s.count t = 0
  user : ∀ {p}, ¬ s.IsTable p → s.ref p = s.count p + held p
  free : ∀ {p}, s.free p = true → s.ref p = 0

theorem RefsOk.congr {held held' : Page → Int} {s : Frames} (h : RefsOk held s)
    (he : ∀ p, held' p = held p) : RefsOk held' s := by
  have : held' = held := funext he
  rw [this]
  exact h

theorem RefsOk.not_table {held : Page → Int} {s : Frames} (h : RefsOk held s) {p : Page}
    (hp : s.free p = true) : ¬ s.IsTable p := by
  intro ht
  have hf := (h.table ht).2.1
  rw [hp] at hf
  cases hf

/-- A page that an entry maps holds no page table. -/
theorem RefsOk.mapped_not_table {held : Page → Int} {s : Frames} (h : RefsOk held s) {k : Slot}
    (hk : k ∈ s.slots) {p : Page} (hm : s.maps k = some p) : ¬ s.IsTable p := by
  intro ht
  have hpos : 0 < s.count p := refs_pos.2 ⟨k, hk, hm⟩
  have hz := (h.table ht).2.2
  omega

/-- The code changes `ref` of a page that holds no page table. -/
theorem RefsOk.setRef {held : Page → Int} {s : Frames} (h : RefsOk held s) {page : Page}
    (hp : ¬ s.IsTable page) (n : Int) (hn : s.free page = false) :
    RefsOk (fun p => held p + n * holds (some page) p)
      { s with ref := update s.ref page (s.ref page + n) } := by
  refine ⟨h.distinct, ?_, ?_, ?_⟩
  · intro t ht
    have hne : t ≠ page := fun he => hp (he ▸ ht)
    obtain ⟨hr, hf⟩ := h.table ht
    exact ⟨(update_of_ne hne _ _).trans hr, hf⟩
  · intro p hpt
    have hu := h.user hpt
    show update s.ref page (s.ref page + n) p = s.count p + (held p + n * holds (some page) p)
    by_cases he : p = page
    · subst he
      rw [update_self, holds_self]
      omega
    · rw [update_of_ne he, holds_ne (Ne.symm he)]
      omega
  · intro p hf
    have hne : p ≠ page := by
      rintro rfl
      rw [hn] at hf
      cases hf
    exact (update_of_ne hne _ _).trans (h.free hf)

theorem RefsOk.inc {held : Page → Int} {s : Frames} (h : RefsOk held s) {page : Page}
    (hp : ¬ s.IsTable page) (hn : s.free page = false) :
    RefsOk (fun p => held p + holds (some page) p) (page_ref_inc s page) := by
  apply (h.setRef hp 1 hn).congr
  intro p
  rw [one_mul]

theorem RefsOk.dec {held : Page → Int} {s : Frames} (h : RefsOk held s) {page : Page}
    (hp : ¬ s.IsTable page) (hn : s.free page = false) :
    RefsOk (fun p => held p - holds (some page) p) (page_ref_dec s page) := by
  apply (h.setRef hp (-1) hn).congr
  intro p
  omega

/-- A page without a reference goes back. -/
theorem RefsOk.free_page {held : Page → Int} {s : Frames} (h : RefsOk held s) {page : Page}
    (hp : ¬ s.IsTable page) (hz : s.ref page = 0) : RefsOk held (free_page s page) := by
  have href : (frames.free_page s page).ref = s.ref := by
    unfold frames.free_page
    rw [← hz, update_eq_self]
  refine ⟨h.distinct, ?_, ?_, ?_⟩
  · intro t ht
    have hne : t ≠ page := fun he => hp (he ▸ ht)
    obtain ⟨hr, hf, hc⟩ := h.table ht
    exact ⟨(congrFun href t).trans hr, (update_of_ne hne _ _).trans hf, hc⟩
  · intro p hpt
    exact (congrFun href p).trans (h.user hpt)
  · intro p hf
    rw [href]
    by_cases he : p = page
    · rw [he, hz]
    · exact h.free ((update_of_ne he _ _).symm.trans hf)

/-- A store hands the reference of the old entry to the code and takes one for the new. -/
theorem RefsOk.store {held : Page → Int} {s : Frames} (h : RefsOk held s) {d : Nat} {la : Word}
    {ptep : PtePtr} (hp : IsPte s d la ptep) {pte : pte_t}
    (hv : ∀ q, entryPage pte = some q → ¬ s.IsTable q) :
    RefsOk (fun p => held p + holds (entryPage (s.load ptep)) p - holds (entryPage pte) p)
      (s.store ptep pte) := by
  have hcount := count_store h.distinct hp pte
  refine ⟨h.distinct, ?_, ?_, h.free⟩
  · intro t ht
    obtain ⟨hr, hf, hc⟩ := h.table ht
    refine ⟨hr, hf, ?_⟩
    have hnew : holds (entryPage pte) t = 0 := by
      unfold holds
      rw [if_neg]
      intro he
      exact hv t he ht
    have := hcount t
    omega
  · intro p hpt
    have hu : s.ref p = s.count p + held p := h.user hpt
    have := hcount p
    show s.ref p = (s.store ptep pte).count p + _
    omega

/-! ## `alloc_page` and `get_pte` -/

/-- Between the calls the code holds nothing. -/
abbrev Settled (s : Frames) : Prop := RefsOk (fun _ => 0) s

theorem alloc_page_cases (A : Allocator) (s : Frames) :
    alloc_page A s = (none, { s with tick := s.tick + 1 }) ∨
      ∃ page, s.free page = true ∧ alloc_page A s = (some page, s.taken page) := by
  unfold alloc_page
  split
  · exact Or.inl rfl
  · next page hp => exact Or.inr ⟨page, A.pick_free hp, rfl⟩

theorem Settled.tick {s : Frames} (h : Settled s) (n : Nat) : Settled { s with tick := n } :=
  ⟨h.distinct, h.table, h.user, h.free⟩

theorem Settled.count_free {s : Frames} (h : Settled s) {p : Page} (hp : s.free p = true) :
    s.count p = 0 := by
  have hu := h.user (h.not_table hp)
  rw [h.free hp] at hu
  omega

theorem Settled.taken {s : Frames} (h : Settled s) (page : Page) : Settled (s.taken page) := by
  have hfree : ∀ p, (s.taken page).free p = true → s.free p = true := by
    intro p hf
    unfold Frames.taken at hf
    simp only [update_apply] at hf
    split at hf
    · cases hf
    · exact hf
  refine ⟨h.distinct, ?_, h.user, fun hf => h.free (hfree _ hf)⟩
  intro t ht
  obtain ⟨hr, hf, hc⟩ := h.table ht
  refine ⟨hr, ?_, hc⟩
  rw [← Bool.not_eq_true] at hf ⊢
  exact fun hf' => hf (hfree t hf')

theorem get_pte_cases (A : Allocator) (s : Frames) (d : Nat) (la : Word) (create : Bool) :
    (∃ t, s.table d (PDX la) = some t ∧ get_pte A s d la create = (some ⟨t, PTX la⟩, s)) ∨
    (s.table d (PDX la) = none ∧
      ∃ tick, get_pte A s d la create = (none, { s with tick := tick })) ∨
    (s.table d (PDX la) = none ∧ create = true ∧ ∃ t, s.free t = true ∧
      get_pte A s d la create = (some ⟨t, PTX la⟩, newTable (s.taken t) d la t)) := by
  unfold get_pte
  rcases ht : s.table d (PDX la) with _ | t
  · cases create with
    | false => exact Or.inr (Or.inl ⟨rfl, s.tick, rfl⟩)
    | true =>
      rcases alloc_page_cases A s with ha | ⟨t, hf, ha⟩
      · right; left
        rw [ha]
        exact ⟨rfl, s.tick + 1, rfl⟩
      · right; right
        rw [ha]
        exact ⟨rfl, rfl, t, hf, rfl⟩
  · exact Or.inl ⟨t, rfl, rfl⟩

section

variable {s : Frames} {d : Nat} {la : Word} {t : Page}

theorem table_newTable (d' i' : Nat) :
    (newTable (s.taken t) d la t).table d' i' =
      if d' = d ∧ i' = PDX la then some t else s.table d' i' := by
  unfold Frames.table newTable
  show entryPage (update s.pgdirs d _ d' i') = _
  by_cases hd : d' = d
  · subst hd
    rw [update_self, update_apply]
    by_cases hi : i' = PDX la
    · rw [if_pos hi, if_pos ⟨rfl, hi⟩]
      exact entryPage_or t (by decide) (by decide)
    · rw [if_neg hi, if_neg fun h => hi h.2]
      rfl
  · rw [update_of_ne hd, if_neg fun h => hd h.1]

theorem mem_newTable {p : Page} (hp : p ≠ t) :
    (newTable (s.taken t) d la t).mem p = s.mem p :=
  update_of_ne hp _ _

theorem isTable_newTable (hd : d ∈ s.dirs) (hn : s.table d (PDX la) = none) (p : Page) :
    (newTable (s.taken t) d la t).IsTable p ↔ p = t ∨ s.IsTable p := by
  constructor
  · rintro ⟨d', hd', i', hi', ht⟩
    rw [table_newTable] at ht
    split at ht
    · exact Or.inl (Option.some_inj.1 ht).symm
    · exact Or.inr ⟨d', hd', i', hi', ht⟩
  · rintro (rfl | ⟨d', hd', i', hi', ht⟩)
    · exact ⟨d, hd, PDX la, PDX_lt la, by rw [table_newTable, if_pos ⟨rfl, rfl⟩]⟩
    · refine ⟨d', hd', i', hi', ?_⟩
      rw [table_newTable, if_neg]
      · exact ht
      · rintro ⟨rfl, rfl⟩
        rw [hn] at ht
        cases ht

/-- The new table maps nothing, and the others stay. -/
theorem maps_newTable (hn : s.table d (PDX la) = none) (ht : ¬ s.IsTable t) {k : Slot}
    (hk : k ∈ s.slots) : (newTable (s.taken t) d la t).maps k = s.maps k := by
  obtain ⟨d', i', j'⟩ := k
  obtain ⟨hd', hi', -⟩ := (mem_slots s d' i' j').1 hk
  unfold Frames.maps
  rw [table_newTable]
  by_cases h : d' = d ∧ i' = PDX la
  · rw [if_pos h, h.1, h.2, hn, Option.bind_none, Option.bind_some]
    have hz : (newTable (s.taken t) d la t).load ⟨t, j'⟩ = 0#32 := by
      show update s.mem t (fun _ => 0#32) t j' = 0#32
      rw [update_self]
    rw [hz, entryPage_zero]
  · rw [if_neg h]
    rcases ht' : s.table d' i' with _ | t'
    · rfl
    · have hne : t' ≠ t := by
        rintro rfl
        exact ht ⟨d', hd', i', hi', ht'⟩
      rw [Option.bind_some, Option.bind_some]
      unfold Frames.load
      rw [mem_newTable hne]

theorem count_newTable (hn : s.table d (PDX la) = none) (ht : ¬ s.IsTable t) (p : Page) :
    (newTable (s.taken t) d la t).count p = s.count p :=
  refs_congr (fun _ hk => maps_newTable hn ht hk) p

theorem Settled.newTable (h : Settled s) (hd : d ∈ s.dirs) (hn : s.table d (PDX la) = none)
    (hf : s.free t = true) : Settled (newTable (s.taken t) d la t) := by
  have htn := h.not_table hf
  have href : ∀ p, (frames.newTable (s.taken t) d la t).ref p = if p = t then 1 else s.ref p := by
    intro p
    show update s.ref t (s.ref t + 1) p = _
    rw [update_apply, h.free hf, zero_add]
  have hfree : ∀ p, (frames.newTable (s.taken t) d la t).free p =
      if p = t then false else s.free p := fun p => update_apply _ _ _ _
  refine ⟨?_, ?_, ?_, ?_⟩
  · intro d1 i1 d2 i2 t' hd1 hi1 hd2 hi2 h1 h2
    rw [table_newTable] at h1 h2
    split at h1
    · next he1 =>
      obtain rfl := Option.some_inj.1 h1
      split at h2
      · next he2 => exact ⟨he1.1.trans he2.1.symm, he1.2.trans he2.2.symm⟩
      · exact absurd ⟨d2, hd2, i2, hi2, h2⟩ htn
    · split at h2
      · obtain rfl := Option.some_inj.1 h2
        exact absurd ⟨d1, hd1, i1, hi1, h1⟩ htn
      · exact h.distinct hd1 hi1 hd2 hi2 h1 h2
  · intro p hp
    rw [href, hfree, count_newTable hn htn]
    rcases (isTable_newTable hd hn p).1 hp with rfl | hp
    · rw [if_pos rfl, if_pos rfl]
      exact ⟨rfl, rfl, h.count_free hf⟩
    · have hne : p ≠ t := fun he => htn (he ▸ hp)
      rw [if_neg hne, if_neg hne]
      exact h.table hp
  · intro p hp
    rw [isTable_newTable hd hn, not_or] at hp
    rw [href, if_neg hp.1, count_newTable hn htn]
    exact h.user hp.2
  · intro p hp
    rw [hfree] at hp
    split at hp
    · cases hp
    · next hne =>
      rw [href, if_neg hne]
      exact h.free hp

end

/-- What `get_pte` keeps whether it makes a page table or not. -/
structure Tabled (s s' : Frames) : Prop where
  settled : Settled s'
  dirs : s'.dirs = s.dirs
  count : ∀ p, s'.count p = s.count p
  free : ∀ {p}, s.free p = false → s'.free p = false
  isTable : ∀ {p}, s.free p = false → s'.IsTable p → s.IsTable p

theorem get_pte_spec {A : Allocator} {s : Frames} (h : Settled s) {d : Nat} (hd : d ∈ s.dirs)
    (la : Word) (create : Bool) :
    Tabled s (get_pte A s d la create).2 ∧
      (∀ ptep, (get_pte A s d la create).1 = some ptep →
        IsPte (get_pte A s d la create).2 d la ptep) ∧
      ((get_pte A s d la create).1 = none →
        ∃ tick, (get_pte A s d la create).2 = { s with tick := tick }) := by
  rcases get_pte_cases A s d la create with ⟨t, ht, hg⟩ | ⟨ht, tick, hg⟩ | ⟨ht, -, t, hf, hg⟩
  · rw [hg]
    refine ⟨⟨h, rfl, fun _ => rfl, id, fun _ => id⟩, ?_, nofun⟩
    intro ptep hp
    obtain rfl := Option.some_inj.1 hp
    exact ⟨hd, ht, rfl⟩
  · rw [hg]
    exact ⟨⟨h.tick tick, rfl, fun _ => rfl, id, fun _ => id⟩, nofun, fun _ => ⟨tick, rfl⟩⟩
  · rw [hg]
    have htn := h.not_table hf
    refine ⟨⟨h.newTable hd ht hf, rfl, count_newTable ht htn, ?_, ?_⟩, ?_, nofun⟩
    · intro p hp
      show update s.free t false p = false
      rw [update_apply]
      split
      · rfl
      · exact hp
    · intro p hp hpt
      rcases (isTable_newTable hd ht p).1 hpt with rfl | hpt
      · rw [hf] at hp
        cases hp
      · exact hpt
    · intro ptep hp
      obtain rfl := Option.some_inj.1 hp
      exact ⟨hd, by rw [table_newTable, if_pos ⟨rfl, rfl⟩], rfl⟩

/-! ## `page_remove_pte` -/

section

variable {held : Page → Int} {s : Frames} {d : Nat} {la : Word} {ptep : PtePtr}

/-- A page that an entry maps has a reference, so it is not free. -/
theorem RefsOk.mapped (h : RefsOk held s) (h0 : ∀ p, 0 ≤ held p) (hp : IsPte s d la ptep)
    {page : Page} (hm : entryPage (s.load ptep) = some page) :
    ¬ s.IsTable page ∧ s.free page = false ∧ 0 < s.count page := by
  have hmaps : s.maps (d, PDX la, PTX la) = some page := by rw [maps_pte hp, hm]
  have hn := h.mapped_not_table hp.mem_slots hmaps
  have hpos : 0 < s.count page := refs_pos.2 ⟨_, hp.mem_slots, hmaps⟩
  refine ⟨hn, ?_, hpos⟩
  rw [← Bool.not_eq_true]
  intro hf
  have hu := h.user hn
  have hheld := h0 page
  rw [h.free hf] at hu
  omega

/-- `page_remove_pte` clears the entry, gives up its reference, and frees the page with the
last one. -/
structure Removed (s s' : Frames) (ptep : PtePtr) : Prop where
  pgdirs : s'.pgdirs = s.pgdirs
  dirs : s'.dirs = s.dirs
  load : ∀ ptep', entryPage (s'.load ptep') =
    if ptep' = ptep then none else entryPage (s.load ptep')
  count : ∀ p, s'.count p + holds (entryPage (s.load ptep)) p = s.count p
  free : ∀ p, s'.free p = true ↔
    s.free p = true ∨ (entryPage (s.load ptep) = some p ∧ s.ref p = 1)

theorem page_remove_pte_spec (h : RefsOk held s) (h0 : ∀ p, 0 ≤ held p)
    (hp : IsPte s d la ptep) :
    RefsOk held (page_remove_pte s ptep) ∧ Removed s (page_remove_pte s ptep) ptep := by
  unfold page_remove_pte
  by_cases hpres : ptep_present (s.load ptep) = true
  · obtain ⟨page, hpage⟩ : ∃ page, page = pte2page (s.load ptep) := ⟨_, rfl⟩
    have hent : entryPage (s.load ptep) = some page := entryPage_eq_some.2 ⟨hpres, hpage.symm⟩
    obtain ⟨hnt, hnf, -⟩ := h.mapped h0 hp hent
    rw [if_pos hpres, ← hpage]
    have hdec := h.dec hnt hnf
    obtain ⟨s1, hs1⟩ : ∃ s1, s1 = page_ref_dec s page := ⟨_, rfl⟩
    rw [← hs1] at hdec
    simp only [← hs1]
    have href : s1.ref page = s.ref page - 1 := by
      rw [hs1]
      exact update_self _ _ _
    -- only a page without a reference goes back
    obtain ⟨s2, hs2⟩ : ∃ s2, s2 = if s1.ref page = 0 then free_page s1 page else s1 := ⟨_, rfl⟩
    rw [← hs2]
    have h2 : RefsOk (fun p => held p - holds (some page) p) s2 ∧ s2.pgdirs = s.pgdirs ∧
        s2.dirs = s.dirs ∧ s2.mem = s.mem ∧
        ∀ p, s2.free p = true ↔ s.free p = true ∨ (page = p ∧ s.ref p = 1) := by
      rw [hs2]
      split
      · next hz =>
        have hnt1 : ¬ s1.IsTable page := by
          rw [hs1]
          exact hnt
        refine ⟨hdec.free_page hnt1 hz, by rw [hs1]; rfl, by rw [hs1]; rfl, by rw [hs1]; rfl, ?_⟩
        intro p
        have hfree : s1.free = s.free := by rw [hs1]; rfl
        show update s1.free page true p = true ↔ _
        rw [update_apply, hfree]
        split
        · next he =>
          have h1 : s.ref p = 1 := by
            rw [he]
            omega
          exact ⟨fun _ => Or.inr ⟨he.symm, h1⟩, fun _ => rfl⟩
        · next hne => exact ⟨Or.inl, fun ho => ho.resolve_right fun hr => hne hr.1.symm⟩
      · next hz =>
        refine ⟨hdec, by rw [hs1]; rfl, by rw [hs1]; rfl, by rw [hs1]; rfl, ?_⟩
        intro p
        have hfree : s1.free = s.free := by rw [hs1]; rfl
        rw [hfree]
        refine ⟨Or.inl, fun ho => ho.resolve_right ?_⟩
        rintro ⟨rfl, hr⟩
        omega
    obtain ⟨hok2, hpd, hdirs, hmem, hfree⟩ := h2
    have hload : s2.load = s.load := by
      unfold Frames.load
      rw [hmem]
    have htab : s2.table = s.table := by
      unfold Frames.table
      rw [hpd]
    have hp2 : IsPte s2 d la ptep := ⟨by rw [hdirs]; exact hp.dir, by rw [htab]; exact hp.table,
      hp.index⟩
    have hcount2 : ∀ p, s2.count p = s.count p := by
      intro p
      have hslots : s2.slots = s.slots := by
        unfold Frames.slots
        rw [hdirs]
      have hmaps : s2.maps = s.maps := by
        unfold Frames.maps
        rw [htab, hload]
      unfold Frames.count
      rw [hslots, hmaps]
    have hcs := count_store hok2.distinct hp2 0#32
    refine ⟨(@RefsOk.store _ _ hok2 _ _ _ hp2 0#32 nofun).congr ?_, hpd, hdirs, ?_, ?_, ?_⟩
    · intro p
      rw [hload, hent, entryPage_zero, holds_none]
      omega
    · intro ptep'
      rw [load_store, hload]
      split
      · rfl
      · rfl
    · intro p
      have := hcs p
      rw [hload, hent, entryPage_zero, holds_none, hcount2] at this
      rw [hent]
      exact this
    · intro p
      show s2.free p = true ↔ _
      rw [hfree p, hent, Option.some_inj]
  · have hent : entryPage (s.load ptep) = none := if_neg hpres
    rw [if_neg hpres]
    refine ⟨h, rfl, rfl, ?_, ?_, ?_⟩
    · intro ptep'
      split
      · next he => rw [he, hent]
      · rfl
    · intro p
      rw [hent, holds_none, Nat.add_zero]
    · intro p
      rw [hent]
      exact ⟨Or.inl, fun ho => ho.resolve_right fun hr => nomatch hr.1⟩

end

/-! ## What a call frees -/

/-- Just the pages whose last entry went are free now that were not. -/
def FreesUnmapped (s s' : Frames) : Prop :=
  ∀ p, s.free p = false → (s'.free p = true ↔ 0 < s.count p ∧ s'.count p = 0)

/-- Entries only went. -/
structure Drops (s s' : Frames) : Prop where
  count_le : ∀ p, s'.count p ≤ s.count p
  keep : ∀ p, s.free p = true → s'.free p = true
  freed : FreesUnmapped s s'

theorem Drops.of_eq {s s' : Frames} (hc : ∀ p, s'.count p = s.count p) (hf : s'.free = s.free) :
    Drops s s' := by
  refine ⟨fun p => (hc p).le, fun p hp => by rw [hf]; exact hp, ?_⟩
  intro p hp
  rw [hf, hp, hc p]
  constructor
  · intro h
    cases h
  · rintro ⟨h1, h2⟩
    omega

theorem Drops.trans {s s' s'' : Frames} (h : Drops s s') (h' : Drops s' s'') : Drops s s'' := by
  refine ⟨fun p => (h'.count_le p).trans (h.count_le p), fun p hp => h'.keep p (h.keep p hp), ?_⟩
  intro p hp
  have h1 := h.freed p hp
  have hle := h.count_le p
  have hle' := h'.count_le p
  cases hf : s'.free p with
  | true =>
    have hz := h1.1 hf
    have hk := h'.keep p hf
    constructor
    · intro _
      omega
    · exact fun _ => hk
  | false =>
    have h2 := h'.freed p hf
    have hn : ¬ (0 < s.count p ∧ s'.count p = 0) := by
      intro hz
      rw [h1.2 hz] at hf
      cases hf
    rw [h2]
    omega

theorem Removed.drops {s s' : Frames} (h : Settled s) {d : Nat} {la : Word} {ptep : PtePtr}
    (hp : IsPte s d la ptep) (hr : Removed s s' ptep) : Drops s s' := by
  have hcount := hr.count
  refine ⟨fun p => by have := hcount p; omega, fun p hf => (hr.free p).2 (Or.inl hf), ?_⟩
  intro p hf
  have hc := hcount p
  rw [hr.free p, hf]
  by_cases he : entryPage (s.load ptep) = some p
  · obtain ⟨hn, -, hpos⟩ := h.mapped (fun _ => le_rfl) hp he
    have hu := h.user hn
    rw [he, holds_self] at hc
    simp only [he, true_and, Bool.false_eq_true, false_or]
    omega
  · have hz : holds (entryPage (s.load ptep)) p = 0 := if_neg he
    simp only [he, false_and, Bool.false_eq_true, or_false, false_iff]
    omega

theorem page_remove_spec {A : Allocator} {s : Frames} (h : Settled s) {d : Nat} (hd : d ∈ s.dirs)
    (la : Word) : Settled (page_remove A s d la) ∧ Drops s (page_remove A s d la) := by
  unfold page_remove
  rcases get_pte_cases A s d la false with ⟨t, ht, hg⟩ | ⟨-, tick, hg⟩ | ⟨-, hc, -⟩
  · rw [hg]
    have hp : IsPte s d la ⟨t, PTX la⟩ := ⟨hd, ht, rfl⟩
    obtain ⟨hok, hr⟩ := page_remove_pte_spec h (fun _ => le_rfl) hp
    exact ⟨hok, hr.drops h hp⟩
  · rw [hg]
    exact ⟨h.tick tick, Drops.of_eq (fun _ => rfl) rfl⟩
  · cases hc

theorem unmapLoop_spec {A : Allocator} {d : Nat} {stop : Word} : ∀ (rounds : Nat) (start : Word)
    (s : Frames), Settled s → d ∈ s.dirs →
    Settled (unmapLoop A d stop rounds start s) ∧ Drops s (unmapLoop A d stop rounds start s) := by
  intro rounds
  induction rounds with
  | zero =>
    intro start s h _
    exact ⟨h, Drops.of_eq (fun _ => rfl) rfl⟩
  | succ rounds ih =>
    intro start s h hd
    unfold unmapLoop
    rcases get_pte_cases A s d start false with ⟨t, ht, hg⟩ | ⟨-, tick, hg⟩ | ⟨-, hc, -⟩
    · rw [hg]
      have hp : IsPte s d start ⟨t, PTX start⟩ := ⟨hd, ht, rfl⟩
      obtain ⟨s1, hs1⟩ : ∃ s1, s1 = if s.load ⟨t, PTX start⟩ ≠ 0#32
          then page_remove_pte s ⟨t, PTX start⟩ else s := ⟨_, rfl⟩
      have h1 : Settled s1 ∧ Drops s s1 ∧ d ∈ s1.dirs := by
        rw [hs1]
        split
        · obtain ⟨hok, hr⟩ := page_remove_pte_spec h (fun _ => le_rfl) hp
          exact ⟨hok, hr.drops h hp, by rw [hr.dirs]; exact hd⟩
        · exact ⟨h, Drops.of_eq (fun _ => rfl) rfl, hd⟩
      obtain ⟨hok, hdrop, hd1⟩ := h1
      simp only [← hs1]
      split
      · obtain ⟨hok', hdrop'⟩ := ih (start + PGSIZE) s1 hok hd1
        exact ⟨hok', hdrop.trans hdrop'⟩
      · exact ⟨hok, hdrop⟩
    · rw [hg]
      have hdrop : Drops s { s with tick := tick } := Drops.of_eq (fun _ => rfl) rfl
      simp only
      split
      · obtain ⟨hok', hdrop'⟩ := ih (ROUNDDOWN_2N (start + PTSIZE) PTSHIFT)
          { s with tick := tick } (h.tick tick) hd
        exact ⟨hok', hdrop.trans hdrop'⟩
      · exact ⟨h.tick tick, hdrop⟩
    · cases hc

/-! ## `page_insert` -/

theorem page_insert_spec {A : Allocator} {s : Frames} (h : Settled s) {d : Nat} (hd : d ∈ s.dirs)
    {page : Page} (hf : s.free page = false) (hn : ¬ s.IsTable page) (la : Word) {perm : Word}
    (hperm : perm < PGSIZE) :
    Settled (page_insert A s d page la perm).2 ∧
      FreesUnmapped s (page_insert A s d page la perm).2 ∧
      ((page_insert A s d page la perm).1 = false →
        ∃ tick, (page_insert A s d page la perm).2 = { s with tick := tick }) := by
  obtain ⟨htab, hptep, hnone⟩ := get_pte_spec (A := A) h hd la true
  unfold page_insert
  obtain ⟨r, s1, hg⟩ : ∃ r s1, get_pte A s d la true = (r, s1) := ⟨_, _, rfl⟩
  rw [hg] at htab hptep hnone ⊢
  simp only at htab hptep hnone
  cases r with
  | none =>
    obtain ⟨tick, rfl⟩ := hnone rfl
    exact ⟨h.tick tick, (Drops.of_eq (fun _ => rfl) rfl).freed, fun _ => ⟨tick, rfl⟩⟩
  | some ptep =>
    have hp := hptep ptep rfl
    have h1 := htab.settled
    have hf1 : s1.free page = false := htab.free hf
    have hn1 : ¬ s1.IsTable page := fun ht => hn (htab.isTable hf ht)
    have h2 := h1.inc hn1 hf1
    obtain ⟨s2, hs2⟩ : ∃ s2, s2 = page_ref_inc s1 page := ⟨_, rfl⟩
    have hent := entryPage_insert page hperm
    rw [← hs2] at h2
    simp only [← hs2]
    obtain ⟨s3, hs3⟩ : ∃ s3, s3 =
        (if ptep_present (s2.load ptep) then
          if pte2page (s2.load ptep) = page then page_ref_dec s2 page else page_remove_pte s2 ptep
        else s2) := ⟨_, rfl⟩
    rw [← hs3]
    have hload2 : s2.load = s1.load := by rw [hs2]; rfl
    have hfree2 : s2.free = s1.free := by rw [hs2]; rfl
    have hcount2 : ∀ p, s2.count p = s1.count p := fun p => by rw [hs2]; rfl
    have htable2 : ∀ p, s2.IsTable p ↔ s1.IsTable p := fun p => by rw [hs2]; rfl
    have hp2 : IsPte s2 d la ptep := by
      rw [hs2]
      exact ⟨hp.dir, hp.table, hp.index⟩
    -- before the store the code holds one reference, or the entry already is the one for it
    have h3 : ∃ held, RefsOk held s3 ∧ IsPte s3 d la ptep ∧ ¬ s3.IsTable page ∧
        (∀ p, held p + holds (entryPage (s3.load ptep)) p = holds (some page) p) ∧
        ∀ p, s.free p = false →
          (s3.free p = true ↔ 0 < s.count p ∧
            s3.count p + holds (some page) p = holds (entryPage (s3.load ptep)) p) := by
      rw [hs3]
      by_cases hpres : ptep_present (s2.load ptep) = true
      · rw [if_pos hpres]
        by_cases hsame : pte2page (s2.load ptep) = page
        · rw [if_pos hsame]
          have hold : entryPage (s2.load ptep) = some page :=
            entryPage_eq_some.2 ⟨hpres, hsame⟩
          have hold3 : entryPage ((page_ref_dec s2 page).load ptep) = some page := hold
          refine ⟨_, h2.dec ((htable2 page).not.2 hn1) (by rw [hfree2]; exact hf1),
            ⟨hp2.dir, hp2.table, hp2.index⟩, (htable2 page).not.2 hn1, ?_, ?_⟩
          · intro p
            rw [hold3]
            omega
          · intro p hfp
            have hfp3 : (page_ref_dec s2 page).free p = false := by
              show s2.free p = false
              rw [hfree2]
              exact htab.free hfp
            have hcp : (page_ref_dec s2 page).count p = s.count p := by
              show s2.count p = _
              rw [hcount2, htab.count]
            rw [hfp3, hold3, hcp]
            constructor
            · intro hff
              cases hff
            · rintro ⟨hpos, hz⟩
              omega
        · rw [if_neg hsame]
          obtain ⟨old, hold⟩ : ∃ old, old = pte2page (s2.load ptep) := ⟨_, rfl⟩
          have hent2 : entryPage (s2.load ptep) = some old :=
            entryPage_eq_some.2 ⟨hpres, hold.symm⟩
          have hne : old ≠ page := by
            rw [hold]
            exact hsame
          obtain ⟨hok, hr⟩ := page_remove_pte_spec h2 (fun p => by omega) hp2
          have hgone := hr.load ptep
          rw [if_pos rfl] at hgone
          refine ⟨_, hok, ⟨by rw [hr.dirs]; exact hp2.dir, ?_, hp2.index⟩, ?_, ?_, ?_⟩
          · unfold Frames.table
            rw [hr.pgdirs]
            exact hp2.table
          · rintro ⟨d', hd', i', hi', ht'⟩
            apply (htable2 page).not.2 hn1
            unfold Frames.table at ht'
            rw [hr.pgdirs] at ht'
            rw [hr.dirs] at hd'
            exact ⟨d', hd', i', hi', ht'⟩
          · intro p
            rw [hgone, holds_none]
            omega
          · intro p hfp
            have hc := hr.count p
            have hc1 := htab.count p
            have hc2 := hcount2 p
            rw [hr.free p, hgone, holds_none, hfree2, htab.free hfp, hent2]
            rw [hent2] at hc
            by_cases hop : old = p
            · subst hop
              obtain ⟨hnt, -, hpos⟩ := h2.mapped (fun p => by omega) hp2 hent2
              have hu := h2.user hnt
              rw [holds_ne (Ne.symm hne)] at hu ⊢
              rw [holds_self] at hc
              simp only [true_and, Bool.false_eq_true, false_or]
              omega
            · have hsome : ¬ some old = some p := fun he => hop (Option.some_inj.1 he)
              rw [holds_ne hop] at hc
              simp only [hsome, Bool.false_eq_true, false_and, or_false, false_iff]
              omega
      · rw [if_neg hpres]
        have hent2 : entryPage (s2.load ptep) = none := if_neg hpres
        refine ⟨_, h2, hp2, (htable2 page).not.2 hn1, ?_, ?_⟩
        · intro p
          rw [hent2, holds_none]
          omega
        · intro p hfp
          have hc1 := htab.count p
          have hc2 := hcount2 p
          rw [hfree2, htab.free hfp, hent2, holds_none]
          simp only [Bool.false_eq_true, false_iff]
          omega
    obtain ⟨held, hok3, hp3, hn3, hheld, hfreed⟩ := h3
    have hcs := count_store hok3.distinct hp3 (page2pa page ||| PTE_P ||| perm)
    refine ⟨(hok3.store hp3 ?_).congr ?_, ?_, nofun⟩
    · intro q hq
      rw [hent] at hq
      obtain rfl := Option.some_inj.1 hq
      exact hn3
    · intro p
      have := hheld p
      rw [hent]
      omega
    · intro p hfp
      have h4 := hcs p
      rw [hent] at h4
      show s3.free p = true ↔ _
      rw [hfreed p hfp]
      constructor
      · rintro ⟨hpos, hz⟩
        exact ⟨hpos, by omega⟩
      · rintro ⟨hpos, hz⟩
        exact ⟨hpos, by omega⟩

theorem taken_free {s : Frames} {page p : Page} (h : s.free p = false) :
    (s.taken page).free p = false := by
  show update s.free page false p = false
  rw [update_apply]
  split
  · rfl
  · exact h

theorem pgdir_alloc_page_spec {A : Allocator} {s : Frames} (h : Settled s) {d : Nat}
    (hd : d ∈ s.dirs) (la : Word) {perm : Word} (hperm : perm < PGSIZE) :
    Settled (pgdir_alloc_page A s d la perm).2 ∧
      FreesUnmapped s (pgdir_alloc_page A s d la perm).2 := by
  unfold pgdir_alloc_page
  rcases alloc_page_cases A s with ha | ⟨page, hf, ha⟩
  · rw [ha]
    exact ⟨h.tick _, (Drops.of_eq (fun _ => rfl) rfl).freed⟩
  · rw [ha]
    have h1 := h.taken page
    have hn := h.not_table hf
    have hf1 : (s.taken page).free page = false := update_self _ _ _
    obtain ⟨hok, hfreed, hfail⟩ := page_insert_spec (A := A) h1 (d := d) hd hf1 hn la hperm
    obtain ⟨r, s2, hi⟩ : ∃ r s2, page_insert A (s.taken page) d page la perm = (r, s2) :=
      ⟨_, _, rfl⟩
    simp only
    rw [hi] at hok hfreed hfail ⊢
    cases r with
    | true => exact ⟨hok, fun p hp => hfreed p (taken_free hp)⟩
    | false =>
      obtain ⟨tick, rfl⟩ := hfail rfl
      have hfree : (free_page { s.taken page with tick := tick } page).free = s.free := by
        show update (update s.free page false) page true = s.free
        rw [update_idem, ← hf, update_eq_self]
      have hcount : ∀ p, (free_page { s.taken page with tick := tick } page).count p = s.count p :=
        fun _ => rfl
      exact ⟨hok.free_page hn (h.free hf), (Drops.of_eq hcount hfree).freed⟩

/-! ## Runs -/

theorem boot_settled (pgdirs : Nat → Nat → Word) (mem : Page → Nat → Word) (free : Page → Bool) :
    Settled (Frames.boot pgdirs mem free) := by
  have hslots : (Frames.boot pgdirs mem free).slots = ∅ := Finset.empty_product _
  refine ⟨?_, ?_, ?_, fun _ => rfl⟩
  · intro d i d' i' t hd
    exact absurd hd (Finset.notMem_empty d)
  · rintro t ⟨d, hd, -⟩
    exact absurd hd (Finset.notMem_empty d)
  · intro p _
    unfold Frames.count
    rw [hslots]
    rfl

/-- An empty directory has no entry that maps a page. -/
theorem setup_pgdir_spec {s : Frames} (h : Settled s) {d : Nat} (hd : d ∉ s.dirs) :
    Settled (setup_pgdir s d) ∧ (∀ p, (setup_pgdir s d).count p = s.count p) := by
  have htab : ∀ d' i, (setup_pgdir s d).table d' i = if d' = d then none else s.table d' i := by
    intro d' i
    show entryPage (update s.pgdirs d (fun _ => 0#32) d' i) = _
    rw [update_apply]
    split
    · exact entryPage_zero
    · rfl
  have hold : ∀ d' ∈ s.dirs, d' ≠ d := fun d' hd' he => hd (he ▸ hd')
  have hdirs : ∀ {d' i t}, (setup_pgdir s d).table d' i = some t → d' ∈ (setup_pgdir s d).dirs →
      d' ∈ s.dirs ∧ s.table d' i = some t := by
    intro d' i t ht hd'
    rw [htab] at ht
    split at ht
    · cases ht
    · next hne => exact ⟨(Finset.mem_insert.1 hd').resolve_left hne, ht⟩
  have hist : ∀ p, (setup_pgdir s d).IsTable p ↔ s.IsTable p := by
    intro p
    constructor
    · rintro ⟨d', hd', i, hi, ht⟩
      obtain ⟨hd', ht⟩ := hdirs ht hd'
      exact ⟨d', hd', i, hi, ht⟩
    · rintro ⟨d', hd', i, hi, ht⟩
      refine ⟨d', Finset.mem_insert_of_mem hd', i, hi, ?_⟩
      rw [htab, if_neg (hold d' hd')]
      exact ht
  have hmaps : ∀ k, (setup_pgdir s d).maps k = if k.1 = d then none else s.maps k := by
    intro k
    unfold Frames.maps
    rw [htab]
    split
    · rfl
    · rfl
  have hcount : ∀ p, (setup_pgdir s d).count p = s.count p := by
    intro p
    unfold Frames.count
    have hsub : s.slots ⊆ (setup_pgdir s d).slots :=
      Finset.product_subset_product_left (Finset.subset_insert d s.dirs)
    rw [refs_mono hsub]
    · apply refs_congr
      rintro ⟨d', i, j⟩ hk
      rw [hmaps, if_neg (hold d' ((mem_slots s d' i j).1 hk).1)]
    · rintro ⟨d', i, j⟩ hk hnk
      obtain ⟨hd', hi, hj⟩ := (mem_slots _ d' i j).1 hk
      rw [hmaps, if_pos]
      by_contra hne
      exact hnk ((mem_slots s d' i j).2 ⟨(Finset.mem_insert.1 hd').resolve_left hne, hi, hj⟩)
  refine ⟨⟨?_, ?_, ?_, h.free⟩, hcount⟩
  · intro d1 i1 d2 i2 t hd1 hi1 hd2 hi2 h1 h2
    obtain ⟨hd1, h1⟩ := hdirs h1 hd1
    obtain ⟨hd2, h2⟩ := hdirs h2 hd2
    exact h.distinct hd1 hi1 hd2 hi2 h1 h2
  · intro t ht
    rw [hcount]
    exact h.table ((hist t).1 ht)
  · intro p hp
    rw [hcount]
    exact h.user ((hist p).not.1 hp)

theorem step_spec {A : Allocator} {s s' : Frames} (h : Settled s) {op : FrameOp}
    (hs : op.step A s = some s') : Settled s' ∧ FreesUnmapped s s' := by
  cases op with
  | setup_pgdir d =>
    simp only [FrameOp.step] at hs
    split at hs
    · cases hs
    · next hd =>
      obtain rfl := Option.some_inj.1 hs
      obtain ⟨hok, hc⟩ := setup_pgdir_spec h hd
      exact ⟨hok, (Drops.of_eq hc rfl).freed⟩
  | alloc_page =>
    obtain rfl := Option.some_inj.1 hs
    rcases alloc_page_cases A s with ha | ⟨page, hf, ha⟩
    · rw [ha]
      exact ⟨h.tick _, (Drops.of_eq (fun _ => rfl) rfl).freed⟩
    · rw [ha]
      refine ⟨h.taken page, ?_⟩
      intro p hp
      have hc : (s.taken page).count p = s.count p := rfl
      rw [taken_free hp, hc]
      constructor
      · intro hff
        cases hff
      · rintro ⟨h1, h2⟩
        omega
  | page_insert d page la perm =>
    simp only [FrameOp.step] at hs
    split at hs
    · next hc =>
      obtain rfl := Option.some_inj.1 hs
      obtain ⟨hd, hf, hn, hperm⟩ := hc
      obtain ⟨hok, hfreed, -⟩ := page_insert_spec (A := A) h hd hf hn la hperm
      exact ⟨hok, hfreed⟩
    · cases hs
  | page_remove d la =>
    simp only [FrameOp.step] at hs
    split at hs
    · next hd =>
      obtain rfl := Option.some_inj.1 hs
      obtain ⟨hok, hdrop⟩ := page_remove_spec (A := A) h hd la
      exact ⟨hok, hdrop.freed⟩
    · cases hs
  | pgdir_alloc_page d la perm =>
    simp only [FrameOp.step] at hs
    split at hs
    · next hc =>
      obtain rfl := Option.some_inj.1 hs
      exact pgdir_alloc_page_spec h hc.1 la hc.2
    · cases hs
  | unmap_range d start stop =>
    simp only [FrameOp.step] at hs
    split at hs
    · next hd =>
      unfold unmap_range at hs
      split at hs
      · obtain rfl := Option.some_inj.1 hs
        obtain ⟨hok, hdrop⟩ := @unmapLoop_spec A d stop NPAGES start s h hd
        exact ⟨hok, hdrop.freed⟩
      · cases hs
    · cases hs

theorem run_settled {A : Allocator} {s s' : Frames} {ops : List FrameOp} (h : Settled s)
    (hr : ops.foldlM (FrameOp.step A) s = some s') : Settled s' :=
  invariant_of_partialRun (fun _ _ _ hi hs => (step_spec hi hs).1) h hr

/-- After any calls, with any allocator: `ref` of a page counts the present entries that map it,
a page table has one reference, nothing maps a free page, the next call frees just the pages
whose last entry it takes away, and a `page_insert` that fails changes nothing. -/
theorem page_refs_ok (A : Allocator) (pgdirs : Nat → Nat → Word) (mem : Page → Nat → Word)
    (free : Page → Bool) (ops : List FrameOp) (s : Frames)
    (h : ops.foldlM (FrameOp.step A) (Frames.boot pgdirs mem free) = some s) :
    (∀ p, ¬ s.IsTable p → s.ref p = s.count p) ∧
    (∀ t, s.IsTable t → s.ref t = 1 ∧ s.free t = false) ∧
    (∀ p, s.free p = true → s.count p = 0) ∧
    (∀ op s', FrameOp.step A s op = some s' → ∀ p, s.free p = false →
      (s'.free p = true ↔ 0 < s.count p ∧ s'.count p = 0)) ∧
    ∀ d page la perm, FrameOp.step A s (.page_insert d page la perm) ≠ none →
      (page_insert A s d page la perm).1 = false →
      ∃ tick, (page_insert A s d page la perm).2 = { s with tick := tick } := by
  have hok := run_settled (boot_settled pgdirs mem free) h
  refine ⟨?_, ?_, fun p hp => hok.count_free hp, ?_, ?_⟩
  · intro p hp
    rw [hok.user hp, add_zero]
  · intro t ht
    obtain ⟨hr, hf, -⟩ := hok.table ht
    exact ⟨hr, hf⟩
  · intro op s' hs
    exact (step_spec hok hs).2
  · intro d page la perm hs hfail
    simp only [FrameOp.step] at hs
    split at hs
    · next hc =>
      obtain ⟨hd, hf, hn, hperm⟩ := hc
      exact (page_insert_spec hok hd hf hn la hperm).2.2 hfail
    · exact absurd rfl hs

/-- An allocator with eight pages, which gives out the lowest. -/
def eightPages : Allocator where
  pick free _ := ((List.range 8).map fun i => BitVec.ofNat 20 (0x80100 + i)).find? free
  pick_free h := List.find?_some h
  memory _ := true

/-- A page mapped at one address, then at a second one and there once more. -/
def mapTwice : List FrameOp :=
  [.setup_pgdir 0, .alloc_page, .page_insert 0 0x80100#20 0x0#32 0#32,
    .page_insert 0 0x80100#20 0x1000#32 PTE_U, .page_insert 0 0x80100#20 0x1000#32 (PTE_U ||| PTE_W)]

theorem page_refs_ok_mapTwice : ∃ s,
    mapTwice.foldlM (FrameOp.step eightPages)
      (Frames.boot (fun _ _ => 0#32) (fun _ _ => 0#32) fun _ => true) = some s ∧
    s.count 0x80100#20 = 2 ∧ s.ref 0x80100#20 = 2 := by
  have h : (mapTwice.foldlM (FrameOp.step eightPages)
      (Frames.boot (fun _ _ => 0#32) (fun _ _ => 0#32) fun _ => true)).map
      (fun s => (decide (s.IsTable 0x80100#20), s.ref 0x80100#20)) = some (false, 2) := by
    decide +kernel
  obtain ⟨s, hs, hv⟩ := Option.map_eq_some_iff.1 h
  obtain ⟨ht, hr⟩ := Prod.mk.inj hv
  have hc := (page_refs_ok eightPages _ _ _ mapTwice s hs).1 _ (of_decide_eq_false ht)
  exact ⟨s, hs, by omega, hr⟩

end nehcpu.kernel.frames
