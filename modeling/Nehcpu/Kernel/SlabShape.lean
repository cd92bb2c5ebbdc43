-- The invariant of the slab allocator: every object belongs to one holder, every page to one
-- slab, and the chains and lists agree with the counters.
import Mathlib.Data.Set.Basic
import Mathlib.Algebra.Ring.Nat
import Nehcpu.Lib.IndexChain
import Nehcpu.Kernel.Slab

namespace nehcpu.kernel.kmem

open Function nehcpu.chain

/-! ## Caches -/

/-- What holds of each cache of the table. -/
structure CacheOk (c : Nat) : Prop where
  objsize : (slab_cache c).objsize = 2 ^ (slab_cache c).objsize_shift
  shift : (slab_cache c).objsize_shift = c + MIN_SIZE_ORDER
  num_pos : 0 < (slab_cache c).num
  num_lt : (slab_cache c).num < BUFCTL_END
  fits : (slab_cache c).offset + (slab_cache c).num * (slab_cache c).objsize ≤
    PGSIZE * 2 ^ (slab_cache c).page_order
  on_slab : (slab_cache c).off_slab = false →
    slab_mgmt_size (slab_cache c).num ≤ (slab_cache c).offset
  off_slab : (slab_cache c).off_slab = true →
    (slab_cache c).slab_cachep < SLAB_CACHE_NUM ∧
    (slab_cache (slab_cache c).slab_cachep).off_slab = false ∧
    slab_mgmt_size (slab_cache c).num ≤ (slab_cache (slab_cache c).slab_cachep).objsize

/-- `slab_init` does not panic, and its table is as it should be. -/
theorem slab_cache_ok : ∀ c < SLAB_CACHE_NUM,
    init_kmem_cache (1 <<< (c + MIN_SIZE_ORDER)) = some (slab_cache c) ∧
    ((slab_cache c).objsize = 2 ^ (slab_cache c).objsize_shift ∧
    (slab_cache c).objsize_shift = c + MIN_SIZE_ORDER ∧
    0 < (slab_cache c).num ∧ (slab_cache c).num < BUFCTL_END ∧
    (slab_cache c).offset + (slab_cache c).num * (slab_cache c).objsize ≤
      PGSIZE * 2 ^ (slab_cache c).page_order) ∧
    ((slab_cache c).off_slab = false →
      slab_mgmt_size (slab_cache c).num ≤ (slab_cache c).offset) ∧
    ((slab_cache c).off_slab = true →
      (slab_cache c).slab_cachep < SLAB_CACHE_NUM ∧
      (slab_cache (slab_cache c).slab_cachep).off_slab = false ∧
      slab_mgmt_size (slab_cache c).num ≤
        (slab_cache (slab_cache c).slab_cachep).objsize) := by
  decide +kernel

theorem cacheOk {c : Nat} (hc : c < SLAB_CACHE_NUM) : CacheOk c := by
  obtain ⟨-, ⟨h1, h2, h3, h4, h5⟩, h6, h7⟩ := slab_cache_ok c hc
  exact ⟨h1, h2, h3, h4, h5, h6, h7⟩

/-! ## Slabs and objects -/

/-- The slab is on a list of the cache. -/
def Slabs.Listed (s : Slabs) (c a : Nat) : Prop := a ∈ s.full c ∨ a ∈ s.notfull c

/-- The first page of a slab. -/
def Slabs.base (s : Slabs) (a : Nat) : Nat :=
  ((s.slab a).s_mem - (s.slab a).offset - KERNBASE) / PGSIZE

def Slabs.InRun (s : Slabs) (c a p : Nat) : Prop :=
  s.base a ≤ p ∧ p < s.base a + 2 ^ (slab_cache c).page_order

/-- The free indices of a slab, along its chain. -/
def Slabs.chain (s : Slabs) (c a : Nat) : List Nat :=
  walk BUFCTL_END (s.slab a).bufctl (slab_cache c).num (s.slab a).free

/-- The address of an object. -/
def Slabs.objAt (s : Slabs) (c a i : Nat) : Nat := (s.slab a).s_mem + i * (slab_cache c).objsize

/-- The address is that of an allocated object of the cache. -/
def Slabs.Obj (s : Slabs) (c x : Nat) : Prop :=
  ∃ a i, s.Listed c a ∧ i < (slab_cache c).num ∧ i ∉ s.chain c a ∧ x = s.objAt c a i

/-- The chain ends, and it lists each free index once. -/
structure ChainOk (s : Slabs) (c a : Nat) : Prop where
  linked : Chain BUFCTL_END (s.slab a).bufctl (s.slab a).free (s.chain c a)
  nodup : (s.chain c a).Nodup
  bound : ∀ i ∈ s.chain c a, i < (slab_cache c).num
  count : (s.chain c a).length + (s.slab a).inuse = (slab_cache c).num

/-- The slab stands on its own pages, which lead back to it. -/
structure SlabAt (A : PageAllocator) (s : Slabs) (c a : Nat) : Prop where
  cache : c < SLAB_CACHE_NUM
  s_mem : (s.slab a).s_mem = page2kva (s.base a) + (slab_cache c).offset
  offset : (s.slab a).offset = (slab_cache c).offset
  inside : s.base a + 2 ^ (slab_cache c).page_order ≤ A.npage
  page : ∀ p, s.InRun c a p → s.page p = ⟨true, c, a⟩
  on_slab : (slab_cache c).off_slab = false → a = page2kva (s.base a)
  chain : ChainOk s c a

/-- The address holds the descriptor of a slab of another cache. -/
def Slabs.Descriptor (s : Slabs) (c x : Nat) : Prop :=
  ∃ d, s.Listed d x ∧ (slab_cache d).off_slab = true ∧ (slab_cache d).slab_cachep = c

/-- No slab is on a list twice. -/
structure ListsOk (s : Slabs) : Prop where
  full : ∀ c, (s.full c).Nodup
  notfull : ∀ c, (s.notfull c).Nodup
  apart : ∀ {c a}, a ∈ s.full c → a ∉ s.notfull c

/-- `own` tells the caches of the objects that a caller holds, and `pending` are pages that came
from the page allocator and stand in no slab. -/
structure SlabOk (A : PageAllocator) (s : Slabs) (own : Nat → Option Nat) (pending : Set Nat) :
    Prop where
  lists : ListsOk s
  slab : ∀ {c a}, s.Listed c a → SlabAt A s c a
  obj : ∀ c x, s.Obj c x ↔ own x = some c ∨ s.Descriptor c x
  excl : ∀ {c x}, s.Descriptor c x → own x = none
  taken : ∀ p, s.taken p = true ↔ p ∈ pending ∨ ∃ c a, s.Listed c a ∧ s.InRun c a p
  apart : ∀ {p c a}, p ∈ pending → s.Listed c a → ¬ s.InRun c a p

/-- Beside some slabs, each slab has an object and is on the list that its counter tells. -/
def Tidy (s : Slabs) (E : Set Nat) : Prop :=
  ∀ c a, a ∉ E →
    (a ∈ s.full c → (s.slab a).inuse = (slab_cache c).num) ∧
    (a ∈ s.notfull c → (s.slab a).inuse < (slab_cache c).num) ∧
    (s.Listed c a → 0 < (s.slab a).inuse)

variable {A : PageAllocator} {s s' : Slabs} {own : Nat → Option Nat} {pending : Set Nat}

theorem SlabAt.base_inRun (c a : Nat) : s.InRun c a (s.base a) :=
  ⟨Nat.le_refl _, Nat.lt_add_of_pos_right (Nat.two_pow_pos _)⟩

/-- The whole object is in the pages of its slab, behind the offset. -/
theorem SlabAt.objAt_range {c a i : Nat} (h : SlabAt A s c a) (hi : i < (slab_cache c).num) :
    page2kva (s.base a) + (slab_cache c).offset ≤ s.objAt c a i ∧
    s.objAt c a i + (slab_cache c).objsize ≤
      page2kva (s.base a + 2 ^ (slab_cache c).page_order) := by
  have hfits := (cacheOk h.cache).fits
  have hmul : i * (slab_cache c).objsize + (slab_cache c).objsize ≤
      (slab_cache c).num * (slab_cache c).objsize := by
    rw [← Nat.succ_mul]
    exact Nat.mul_le_mul_right _ hi
  unfold Slabs.objAt
  rw [h.s_mem]
  unfold page2kva at *
  rw [Nat.add_mul, Nat.mul_comm _ PGSIZE, Nat.mul_comm (2 ^ _) PGSIZE] 
  omega

theorem kva2page_page2kva {p : Nat} (hp : p < A.npage) : kva2page A (page2kva p) = some p := by
  have hpage : (page2kva p - KERNBASE) / PGSIZE = p := by
    unfold page2kva KERNBASE PGSIZE
    omega
  unfold kva2page
  rw [hpage, if_pos ⟨Nat.le_add_right _ _, hp⟩]

theorem slab_mgmt_size_pos (num : Nat) : 0 < slab_mgmt_size num := by
  change 0 < (24 + num * 4 + 16 - 1) / 16 * 16
  omega

/-- The page of an object leads to its slab. -/
theorem SlabAt.kva2page {c a i : Nat} (h : SlabAt A s c a) (hi : i < (slab_cache c).num) :
    ∃ p, kva2page A (s.objAt c a i) = some p ∧ s.InRun c a p := by
  obtain ⟨h1, h2⟩ := h.objAt_range hi
  have hpos : 0 < (slab_cache c).objsize := by
    rw [(cacheOk h.cache).objsize]
    exact Nat.two_pow_pos _
  have hin := h.inside
  refine ⟨(s.objAt c a i - KERNBASE) / PGSIZE, ?_, ?_⟩
  · unfold kmem.kva2page
    unfold page2kva KERNBASE PGSIZE at *
    rw [if_pos ⟨by omega, by omega⟩]
  · unfold Slabs.InRun
    unfold page2kva KERNBASE PGSIZE at *
    exact ⟨by omega, by omega⟩

/-- A page stands in one slab at most. -/
theorem SlabOk.run_unique (h : SlabOk A s own pending) {c d a b p : Nat} (ha : s.Listed c a)
    (hb : s.Listed d b) (hp : s.InRun c a p) (hq : s.InRun d b p) : c = d ∧ a = b := by
  have he := ((h.slab ha).page p hp).symm.trans ((h.slab hb).page p hq)
  injection he with _ h1 h2
  exact ⟨h1, h2⟩

theorem SlabOk.cache_unique (h : SlabOk A s own pending) {c d a : Nat} (hc : s.Listed c a)
    (hd : s.Listed d a) : c = d :=
  (h.run_unique hc hd (SlabAt.base_inRun c a) (SlabAt.base_inRun d a)).1

/-- An address is that of one object at most. -/
theorem SlabOk.obj_unique (h : SlabOk A s own pending) {c d a b i j : Nat} (ha : s.Listed c a)
    (hb : s.Listed d b) (hi : i < (slab_cache c).num) (hj : j < (slab_cache d).num)
    (he : s.objAt c a i = s.objAt d b j) : c = d ∧ a = b ∧ i = j := by
  obtain ⟨p, h1, h2⟩ := (h.slab ha).kva2page hi
  obtain ⟨q, h3, h4⟩ := (h.slab hb).kva2page hj
  rw [he, h3] at h1
  obtain rfl := Option.some_inj.1 h1
  obtain ⟨rfl, rfl⟩ := h.run_unique ha hb h2 h4
  have hpos : 0 < (slab_cache c).objsize := by
    rw [(cacheOk (h.slab ha).cache).objsize]
    exact Nat.two_pow_pos _
  exact ⟨rfl, rfl, Nat.eq_of_mul_eq_mul_right hpos (Nat.add_left_cancel he)⟩

/-- No address that a caller holds is the descriptor of a slab. -/
theorem SlabOk.not_listed (h : SlabOk A s own pending) {c d x : Nat} (hx : own x = some c) :
    ¬ s.Listed d x := by
  intro hd
  cases hoff : (slab_cache d).off_slab with
  | true =>
    rw [h.excl ⟨d, hd, hoff, rfl⟩] at hx
    cases hx
  | false =>
    obtain ⟨b, i, hb, hi, -, he⟩ := (h.obj c x).2 (Or.inl hx)
    obtain ⟨p, hp, hrun⟩ := (h.slab hb).kva2page hi
    have hat := h.slab hd
    have hself := hat.on_slab hoff
    have hbase : kmem.kva2page A x = some (s.base x) := by
      have hpos := Nat.two_pow_pos (slab_cache d).page_order
      have hin := hat.inside
      rw [hself]
      have hown : s.base (page2kva (s.base x)) = s.base x := by rw [← hself]
      rw [hown]
      exact kva2page_page2kva (by omega)
    rw [← he, hbase] at hp
    obtain rfl := Option.some_inj.1 hp
    obtain ⟨rfl, rfl⟩ := h.run_unique hb hd hrun (SlabAt.base_inRun _ _)
    have h1 := ((h.slab hb).objAt_range hi).1
    have h2 := (cacheOk hat.cache).on_slab hoff
    have h3 := slab_mgmt_size_pos (slab_cache c).num
    omega

/-! ## Lists -/

theorem ListsOk.mem_del_full (h : ListsOk s) {a b d : Nat} :
    b ∈ (list_del s a).full d ↔ b ≠ a ∧ b ∈ s.full d := (h.full d).mem_erase_iff

theorem ListsOk.mem_del_notfull (h : ListsOk s) {a b d : Nat} :
    b ∈ (list_del s a).notfull d ↔ b ≠ a ∧ b ∈ s.notfull d := (h.notfull d).mem_erase_iff

theorem ListsOk.del (h : ListsOk s) (a : Nat) : ListsOk (list_del s a) where
  full d := (h.full d).erase a
  notfull d := (h.notfull d).erase a
  apart hf hn := h.apart (h.mem_del_full.1 hf).2 (h.mem_del_notfull.1 hn).2

theorem mem_addFull {c d a b : Nat} :
    b ∈ (addFull s c a).full d ↔ d = c ∧ b = a ∨ b ∈ s.full d := by
  unfold addFull
  dsimp only
  by_cases hd : d = c
  · subst hd
    simp
  · simp [hd]

theorem mem_addNotfull {c d a b : Nat} :
    b ∈ (addNotfull s c a).notfull d ↔ d = c ∧ b = a ∨ b ∈ s.notfull d := by
  unfold addNotfull
  dsimp only
  by_cases hd : d = c
  · subst hd
    simp
  · simp [hd]

theorem ListsOk.addFull (h : ListsOk s) {c a : Nat} (ha : ∀ d, ¬ s.Listed d a) :
    ListsOk (addFull s c a) where
  full d := by
    unfold kmem.addFull
    dsimp only
    by_cases hd : d = c
    · subst hd
      rw [update_self, List.nodup_cons]
      exact ⟨fun hm => ha d (Or.inl hm), h.full d⟩
    · rw [update_of_ne hd]
      exact h.full d
  notfull d := h.notfull d
  apart hf hn := by
    rcases mem_addFull.1 hf with ⟨rfl, rfl⟩ | hf
    · exact ha _ (Or.inr hn)
    · exact h.apart hf hn

theorem ListsOk.addNotfull (h : ListsOk s) {c a : Nat} (ha : ∀ d, ¬ s.Listed d a) :
    ListsOk (addNotfull s c a) where
  full d := h.full d
  notfull d := by
    unfold kmem.addNotfull
    dsimp only
    by_cases hd : d = c
    · subst hd
      rw [update_self, List.nodup_cons]
      exact ⟨fun hm => ha d (Or.inr hm), h.notfull d⟩
    · rw [update_of_ne hd]
      exact h.notfull d
  apart hf hn := by
    rcases mem_addNotfull.1 hn with ⟨rfl, rfl⟩ | hn
    · exact ha _ (Or.inl hf)
    · exact h.apart hf hn

theorem ListsOk.listed_del (h : ListsOk s) {a b d : Nat} :
    (list_del s a).Listed d b ↔ b ≠ a ∧ s.Listed d b := by
  unfold Slabs.Listed
  rw [h.mem_del_full, h.mem_del_notfull]
  tauto

theorem ListsOk.del_not_listed (h : ListsOk s) (a d : Nat) : ¬ (list_del s a).Listed d a :=
  fun hl => (h.listed_del.1 hl).1 rfl

theorem listed_addFull {c d a b : Nat} :
    (addFull s c a).Listed d b ↔ d = c ∧ b = a ∨ s.Listed d b := by
  unfold Slabs.Listed
  rw [mem_addFull, or_assoc]
  rfl

theorem listed_addNotfull {c d a b : Nat} :
    (addNotfull s c a).Listed d b ↔ d = c ∧ b = a ∨ s.Listed d b := by
  unfold Slabs.Listed
  rw [mem_addNotfull]
  tauto

/-! ## Changes in one slab -/

/-- Lists of the same slabs, on the same pages. -/
structure SameSlabs (s s' : Slabs) : Prop where
  listed : ∀ d b, s'.Listed d b ↔ s.Listed d b
  page : s'.page = s.page
  taken : s'.taken = s.taken
  s_mem : ∀ b, (s'.slab b).s_mem = (s.slab b).s_mem
  offset : ∀ b, (s'.slab b).offset = (s.slab b).offset

theorem SameSlabs.base (hs : SameSlabs s s') (b : Nat) : s'.base b = s.base b := by
  unfold Slabs.base
  rw [hs.s_mem, hs.offset]

theorem SameSlabs.inRun (hs : SameSlabs s s') (d b p : Nat) : s'.InRun d b p ↔ s.InRun d b p := by
  unfold Slabs.InRun
  rw [hs.base]

theorem SameSlabs.objAt (hs : SameSlabs s s') (d b i : Nat) : s'.objAt d b i = s.objAt d b i := by
  unfold Slabs.objAt
  rw [hs.s_mem]

theorem SameSlabs.descriptor (hs : SameSlabs s s') (d x : Nat) :
    s'.Descriptor d x ↔ s.Descriptor d x := by
  unfold Slabs.Descriptor
  simp only [hs.listed]

theorem SlabOk.change (h : SlabOk A s own pending) (hs : SameSlabs s s') (hl : ListsOk s')
    {own' : Nat → Option Nat} (hchain : ∀ d b, s.Listed d b → ChainOk s' d b)
    (hobj : ∀ d x, s'.Obj d x ↔ own' x = some d ∨ s.Descriptor d x)
    (hexcl : ∀ d x, s.Descriptor d x → own' x = none) : SlabOk A s' own' pending where
  lists := hl
  slab {d b} hb := by
    have hat := h.slab ((hs.listed d b).1 hb)
    refine ⟨hat.cache, ?_, ?_, ?_, ?_, ?_, hchain d b ((hs.listed d b).1 hb)⟩
    · rw [hs.s_mem, hs.base]
      exact hat.s_mem
    · rw [hs.offset]
      exact hat.offset
    · rw [hs.base]
      exact hat.inside
    · intro p hp
      rw [hs.page]
      exact hat.page p ((hs.inRun d b p).1 hp)
    · rw [hs.base]
      exact hat.on_slab
  obj d x := by rw [hobj, hs.descriptor]
  excl {d x} hd := hexcl d x ((hs.descriptor d x).1 hd)
  taken p := by
    rw [hs.taken, h.taken]
    simp only [hs.listed, hs.inRun]
  apart hp hb hr := h.apart hp ((hs.listed _ _).1 hb) ((hs.inRun _ _ _).1 hr)

/-- Where a chain is known, the slab has it. -/
theorem chainOk_of {c a : Nat} {l : List Nat} (hc : c < SLAB_CACHE_NUM)
    (hl : Chain BUFCTL_END (s.slab a).bufctl (s.slab a).free l) (hnd : l.Nodup)
    (hb : ∀ i ∈ l, i < (slab_cache c).num)
    (hn : l.length + (s.slab a).inuse = (slab_cache c).num) :
    s.chain c a = l ∧ ChainOk s c a := by
  have hstop : BUFCTL_END ∉ l := by
    intro hm
    have h1 := hb _ hm
    have h2 := (cacheOk hc).num_lt
    omega
  have he : s.chain c a = l := hl.walk_eq hstop (by omega)
  refine ⟨he, ?_, ?_, ?_, ?_⟩
  · rw [he]
    exact hl
  · rw [he]
    exact hnd
  · rw [he]
    exact hb
  · rw [he]
    exact hn

theorem ChainOk.congr {c a : Nat} (h : ChainOk s c a) (he : s'.slab a = s.slab a) :
    s'.chain c a = s.chain c a ∧ ChainOk s' c a := by
  have hc : s'.chain c a = s.chain c a := by
    unfold Slabs.chain
    rw [he]
  refine ⟨hc, ?_, ?_, ?_, ?_⟩
  · rw [hc, he]
    exact h.linked
  · rw [hc]
    exact h.nodup
  · rw [hc]
    exact h.bound
  · rw [hc, he]
    exact h.count

/-- One index less in a chain is one object more. -/
theorem SameSlabs.obj (hs : SameSlabs s s') {c a i : Nat} (hl : s.Listed c a)
    (hi : i < (slab_cache c).num) (huniq : ∀ d, s.Listed d a → d = c)
    (hother : ∀ b, b ≠ a → s'.slab b = s.slab b) (hc : s.chain c a = i :: s'.chain c a)
    (hnd : (s.chain c a).Nodup) (d x : Nat) :
    s'.Obj d x ↔ s.Obj d x ∨ d = c ∧ x = s.objAt c a i := by
  have hsame : ∀ d b, b ≠ a → s'.chain d b = s.chain d b := by
    intro d b hb
    unfold Slabs.chain
    rw [hother b hb]
  rw [hc] at hnd
  have hin := (List.nodup_cons.1 hnd).1
  constructor
  · rintro ⟨b, j, hb, hj, hn, rfl⟩
    rw [hs.listed] at hb
    rw [hs.objAt]
    by_cases hba : b = a
    · subst hba
      obtain rfl := huniq d hb
      by_cases hji : j = i
      · exact Or.inr ⟨rfl, by rw [hji]⟩
      · refine Or.inl ⟨b, j, hb, hj, ?_, rfl⟩
        rw [hc, List.mem_cons]
        exact fun hm => hm.elim hji hn
    · rw [hsame d b hba] at hn
      exact Or.inl ⟨b, j, hb, hj, hn, rfl⟩
  · rintro (⟨b, j, hb, hj, hn, rfl⟩ | ⟨rfl, rfl⟩)
    · refine ⟨b, j, (hs.listed d b).2 hb, hj, ?_, (hs.objAt d b j).symm⟩
      by_cases hba : b = a
      · subst hba
        obtain rfl := huniq d hb
        rw [hc] at hn
        exact fun hm => hn (List.mem_cons_of_mem i hm)
      · rw [hsame d b hba]
        exact hn
    · exact ⟨a, i, (hs.listed d a).2 hl, hi, hin, (hs.objAt d a i).symm⟩

theorem SameSlabs.refl (s : Slabs) : SameSlabs s s :=
  ⟨fun _ _ => Iff.rfl, rfl, rfl, fun _ => rfl, fun _ => rfl⟩

/-- A descriptor that keeps its memory. -/
theorem SameSlabs.edit {a : Nat} {f : Slab → Slab} (h1 : (f (s.slab a)).s_mem = (s.slab a).s_mem)
    (h2 : (f (s.slab a)).offset = (s.slab a).offset) : SameSlabs s (s.edit a f) := by
  refine ⟨fun _ _ => Iff.rfl, rfl, rfl, ?_, ?_⟩
  · intro b
    unfold Slabs.edit
    dsimp only
    by_cases hb : b = a
    · rw [hb, update_self, h1]
    · rw [update_of_ne hb]
  · intro b
    unfold Slabs.edit
    dsimp only
    by_cases hb : b = a
    · rw [hb, update_self, h2]
    · rw [update_of_ne hb]

/-- A slab goes from one list of its cache to the other. -/
theorem SameSlabs.toFull (hs : SameSlabs s s') (hl : ListsOk s') {c a : Nat} (hc : s.Listed c a)
    (huniq : ∀ d, s.Listed d a → d = c) : SameSlabs s (addFull (list_del s' a) c a) := by
  refine ⟨?_, hs.page, hs.taken, hs.s_mem, hs.offset⟩
  intro d b
  rw [listed_addFull, hl.listed_del, hs.listed]
  constructor
  · rintro (⟨rfl, rfl⟩ | ⟨-, h⟩)
    · exact hc
    · exact h
  · intro h
    by_cases hb : b = a
    · subst hb
      exact Or.inl ⟨huniq d h, rfl⟩
    · exact Or.inr ⟨hb, h⟩

theorem SameSlabs.toNotfull (hs : SameSlabs s s') (hl : ListsOk s') {c a : Nat} (hc : s.Listed c a)
    (huniq : ∀ d, s.Listed d a → d = c) : SameSlabs s (addNotfull (list_del s' a) c a) := by
  refine ⟨?_, hs.page, hs.taken, hs.s_mem, hs.offset⟩
  intro d b
  rw [listed_addNotfull, hl.listed_del, hs.listed]
  constructor
  · rintro (⟨rfl, rfl⟩ | ⟨-, h⟩)
    · exact hc
    · exact h
  · intro h
    by_cases hb : b = a
    · subst hb
      exact Or.inl ⟨huniq d h, rfl⟩
    · exact Or.inr ⟨hb, h⟩

end nehcpu.kernel.kmem
