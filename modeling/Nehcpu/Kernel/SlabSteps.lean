-- What the operations of the slab allocator do to its invariant: an object more or less, a new
-- slab, a slab that is taken down.
import Mathlib.Data.List.Perm.Subperm
import Mathlib.Order.BooleanAlgebra.Set
import Nehcpu.Kernel.SlabShape

namespace nehcpu.kernel.kmem

open Function nehcpu.chain

variable {A : PageAllocator} {s s' : Slabs} {own : Nat → Option Nat} {pending : Set Nat}

/-! ## One slab changes -/

/-- A step that touches one slab: only that one has to be looked at. -/
theorem Tidy.edit {E E' : Set Nat} {a : Nat} (ht : Tidy s E) (hE : ∀ b, b ≠ a → b ∉ E' → b ∉ E)
    (hslab : ∀ b, b ≠ a → s'.slab b = s.slab b)
    (hfull : ∀ d b, b ≠ a → b ∈ s'.full d → b ∈ s.full d)
    (hnotfull : ∀ d b, b ≠ a → b ∈ s'.notfull d → b ∈ s.notfull d)
    (hself : a ∉ E' → ∀ d, (a ∈ s'.full d → (s'.slab a).inuse = (slab_cache d).num) ∧
      (a ∈ s'.notfull d → (s'.slab a).inuse < (slab_cache d).num) ∧
      (s'.Listed d a → 0 < (s'.slab a).inuse)) : Tidy s' E' := by
  intro d b hb
  by_cases hba : b = a
  · rw [hba] at hb ⊢
    exact hself hb d
  · obtain ⟨h1, h2, h3⟩ := ht d b (hE b hba hb)
    rw [hslab b hba]
    refine ⟨fun hm => h1 (hfull d b hba hm), fun hm => h2 (hnotfull d b hba hm), ?_⟩
    intro hl
    exact h3 (hl.imp (hfull d b hba) (hnotfull d b hba))

/-- Lists that hold the same slabs in other places. -/
theorem SlabOk.relist (h : SlabOk A s own pending) (hs : SameSlabs s s')
    (hslab : s'.slab = s.slab) (hl : ListsOk s') : SlabOk A s' own pending := by
  apply h.change hs hl
  · intro d b hb
    exact ((h.slab hb).chain.congr (congrFun hslab b)).2
  · intro d x
    rw [← h.obj]
    unfold Slabs.Obj Slabs.chain Slabs.objAt
    simp only [hs.listed, hslab]
  · exact fun d x hd => h.excl hd

/-! ## One object -/

/-- The state after the first object of a chain is taken. -/
def takeOne (s : Slabs) (a : Nat) : Slabs :=
  s.edit a fun sl => { sl with inuse := sl.inuse + 1, free := sl.bufctl sl.free }

theorem takeOne_slab (s : Slabs) (a : Nat) :
    (takeOne s a).slab a =
      { s.slab a with inuse := (s.slab a).inuse + 1, free := (s.slab a).bufctl (s.slab a).free } :=
  update_self _ _ _

theorem takeOne_other {a b : Nat} (hb : b ≠ a) : (takeOne s a).slab b = s.slab b :=
  update_of_ne hb _ _

theorem takeOne_same (s : Slabs) (a : Nat) : SameSlabs s (takeOne s a) := SameSlabs.edit rfl rfl

/-- An object whose index is in the chain has no holder, and no descriptor is in its place. -/
theorem SlabOk.chain_free (h : SlabOk A s own pending) {c a i : Nat} (hl : s.Listed c a)
    (hi : i ∈ s.chain c a) :
    own (s.objAt c a i) = none ∧ ∀ d, ¬ s.Descriptor d (s.objAt c a i) := by
  have hin := (h.slab hl).chain.bound i hi
  have hno : ∀ d, ¬ (own (s.objAt c a i) = some d ∨ s.Descriptor d (s.objAt c a i)) := by
    intro d hd
    obtain ⟨b, j, hb, hj, hn, he⟩ := (h.obj d _).2 hd
    obtain ⟨rfl, rfl, rfl⟩ := h.obj_unique hl hb hin hj he
    exact hn hi
  constructor
  · cases ho : own (s.objAt c a i) with
    | none => rfl
    | some d => exact absurd (Or.inl ho) (hno d)
  · exact fun d hd => hno d (Or.inr hd)

theorem takeOne_spec (h : SlabOk A s own pending) {c a i : Nat} {l : List Nat}
    (hl : s.Listed c a) (hil : s.chain c a = i :: l) :
    SlabOk A (takeOne s a) (update own (s.objAt c a i) (some c)) pending ∧
      (takeOne s a).chain c a = l ∧ ChainOk (takeOne s a) c a := by
  have hat := h.slab hl
  have hs := takeOne_same s a
  have huniq : ∀ d, s.Listed d a → d = c := fun d hd => h.cache_unique hd hl
  have hi : i ∈ s.chain c a := by
    rw [hil]
    exact List.mem_cons_self
  have hin := hat.chain.bound i hi
  have hlinked := hat.chain.linked
  have hnd := hat.chain.nodup
  have hbound := hat.chain.bound
  have hcount := hat.chain.count
  rw [hil] at hlinked hnd hbound hcount
  rw [List.length_cons] at hcount
  obtain ⟨hfree, hrest⟩ := hlinked
  obtain ⟨hnone, hnot⟩ := h.chain_free hl hi
  obtain ⟨hc1, hok1⟩ : (takeOne s a).chain c a = l ∧ ChainOk (takeOne s a) c a := by
    apply chainOk_of hat.cache
    · rw [takeOne_slab]
      dsimp only
      rw [hfree]
      exact hrest
    · exact (List.nodup_cons.1 hnd).2
    · exact fun j hj => hbound j (List.mem_cons_of_mem i hj)
    · rw [takeOne_slab]
      dsimp only
      omega
  refine ⟨?_, hc1, hok1⟩
  apply h.change hs ⟨h.lists.full, h.lists.notfull, h.lists.apart⟩
  · intro d b hb
    by_cases hba : b = a
    · subst hba
      obtain rfl := huniq d hb
      exact hok1
    · exact ((h.slab hb).chain.congr (takeOne_other hba)).2
  · intro d x
    rw [hs.obj hl hin huniq (fun b hb => takeOne_other hb) (by rw [hc1, hil]) hat.chain.nodup, h.obj]
    by_cases hx : x = s.objAt c a i
    · subst hx
      rw [update_self, hnone]
      constructor
      · rintro ((h1 | h1) | ⟨rfl, -⟩)
        · cases h1
        · exact absurd h1 (hnot d)
        · exact Or.inl rfl
      · rintro (h1 | h1)
        · exact Or.inr ⟨(Option.some_inj.1 h1).symm, rfl⟩
        · exact absurd h1 (hnot d)
    · rw [update_of_ne hx]
      simp [hx]
  · intro d x hd
    rw [update_of_ne]
    · exact h.excl hd
    · rintro rfl
      exact hnot d hd

/-- An object is taken from a slab that has a free one. -/
theorem alloc_one_spec (h : SlabOk A s own pending) {c a : Nat} (hl : a ∈ s.notfull c)
    (hroom : (s.slab a).inuse < (slab_cache c).num) {E : Set Nat} (ht : Tidy s E) :
    ∃ x s', kmem_cache_alloc_one s c a = (x, s') ∧ own x = none ∧
      SlabOk A s' (update own x (some c)) pending ∧ Tidy s' (E \ {a}) := by
  have hlist : s.Listed c a := Or.inr hl
  have hat := h.slab hlist
  have hcount := hat.chain.count
  have huniq : ∀ d, s.Listed d a → d = c := fun d hd => h.cache_unique hd hlist
  obtain ⟨i, l, hil⟩ : ∃ i l, s.chain c a = i :: l := by
    apply List.exists_cons_of_ne_nil
    intro hnil
    rw [hnil, List.length_nil] at hcount
    omega
  obtain ⟨hok, hc1, hok1⟩ := takeOne_spec h hlist hil
  have hnone := (h.chain_free hlist (by rw [hil]; exact List.mem_cons_self)).1
  have hlinked := hat.chain.linked
  rw [hil] at hlinked hcount
  rw [List.length_cons] at hcount
  have hx : (s.slab a).s_mem + (s.slab a).free * (slab_cache c).objsize = s.objAt c a i := by
    rw [hlinked.1]
    rfl
  have hinuse : ((takeOne s a).slab a).inuse = (s.slab a).inuse + 1 := by rw [takeOne_slab]
  have hend : ((takeOne s a).slab a).free = BUFCTL_END ↔ l = [] := by
    rw [← hc1]
    apply hok1.linked.eq_nil
    intro hm
    have h1 := hok1.bound _ hm
    have h2 := (cacheOk hat.cache).num_lt
    omega
  have hE : ∀ b, b ≠ a → b ∉ E \ {a} → b ∉ E := fun b hba hb hE => hb ⟨hE, hba⟩
  have hl1 : ListsOk (takeOne s a) := hok.lists
  by_cases hfull : ((takeOne s a).slab a).free = BUFCTL_END
  · have hmove := (SameSlabs.refl (takeOne s a)).toFull hl1 hlist huniq
    refine ⟨s.objAt c a i, addFull (list_del (takeOne s a) a) c a, ?_, hnone,
      hok.relist hmove rfl ((hl1.del a).addFull (hl1.del_not_listed a)), ?_⟩
    · unfold kmem_cache_alloc_one
      dsimp only
      rw [hx]
      exact if_pos hfull
    · have hlen : l.length = 0 := by rw [hend.1 hfull, List.length_nil]
      apply ht.edit hE
      · exact fun b hb => takeOne_other hb
      · intro d b hba hm
        rcases mem_addFull.1 hm with ⟨-, he⟩ | hm
        · exact absurd he hba
        · exact (hl1.mem_del_full.1 hm).2
      · exact fun d b _ hm => (hl1.mem_del_notfull.1 hm).2
      · intro _ d
        change (_ → ((takeOne s a).slab a).inuse = _) ∧ (_ → ((takeOne s a).slab a).inuse < _) ∧
          (_ → 0 < ((takeOne s a).slab a).inuse)
        refine ⟨?_, ?_, fun _ => by omega⟩
        · intro hm
          rcases mem_addFull.1 hm with ⟨rfl, -⟩ | hm
          · omega
          · exact absurd rfl (hl1.mem_del_full.1 hm).1
        · intro hm
          exact absurd rfl (hl1.mem_del_notfull.1 hm).1
  · refine ⟨s.objAt c a i, takeOne s a, ?_, hnone, hok, ?_⟩
    · unfold kmem_cache_alloc_one
      dsimp only
      rw [hx]
      exact if_neg hfull
    · have hlen : l.length ≠ 0 := fun h0 => hfull (hend.2 (List.length_eq_zero_iff.1 h0))
      apply ht.edit hE (fun b hb => takeOne_other hb) (fun d b _ hm => hm) fun d b _ hm => hm
      intro _ d
      refine ⟨?_, ?_, fun _ => by omega⟩
      · intro hm
        obtain rfl := huniq d (Or.inl hm)
        exact absurd hl (h.lists.apart hm)
      · intro hm
        obtain rfl := huniq d (Or.inr hm)
        omega

/-! ## Pages -/

def pageRun (page n : Nat) : Set Nat := {p | page ≤ p ∧ p < page + n}

theorem mem_pageRun {p page n : Nat} : p ∈ pageRun page n ↔ page ≤ p ∧ p < page + n := Iff.rfl

/-- Pages that change hands between the page allocator and the caller. -/
theorem SlabOk.withPending (h : SlabOk A s own pending) {pending' : Set Nat} {taken' : Nat → Bool}
    (tick' : Nat) (ht : ∀ p, taken' p = true ↔ p ∈ pending' ∨ ∃ c a, s.Listed c a ∧ s.InRun c a p)
    (ha : ∀ {p c a}, p ∈ pending' → s.Listed c a → ¬ s.InRun c a p) :
    SlabOk A { s with taken := taken', tick := tick' } own pending' where
  lists := ⟨h.lists.full, h.lists.notfull, h.lists.apart⟩
  slab hb := by
    have hat := h.slab hb
    exact ⟨hat.cache, hat.s_mem, hat.offset, hat.inside, hat.page, hat.on_slab,
      ⟨hat.chain.linked, hat.chain.nodup, hat.chain.bound, hat.chain.count⟩⟩
  obj := h.obj
  excl := h.excl
  taken := ht
  apart := ha

theorem alloc_pages_spec (h : SlabOk A s own pending) (n : Nat) :
    (∃ s', alloc_pages A s n = (none, s') ∧ SlabOk A s' own pending ∧ ∀ {E}, Tidy s E → Tidy s' E) ∨
    ∃ page s', alloc_pages A s n = (some page, s') ∧ page + n ≤ A.npage ∧
      (∀ p ∈ pageRun page n, p ∉ pending) ∧ SlabOk A s' own (pending ∪ pageRun page n) ∧
      ∀ {E}, Tidy s E → Tidy s' E := by
  unfold alloc_pages
  split
  · refine Or.inl ⟨_, rfl, ?_, fun ht => ht⟩
    exact h.withPending _ h.taken h.apart
  · next page hp =>
    obtain ⟨hin, hfree⟩ := A.pick_free hp
    have hnot : ∀ p ∈ pageRun page n, ¬ (p ∈ pending ∨ ∃ c a, s.Listed c a ∧ s.InRun c a p) := by
      intro p hpr ho
      have ht := (h.taken p).2 ho
      rw [hfree p hpr.1 hpr.2] at ht
      cases ht
    refine Or.inr ⟨page, _, rfl, hin, fun p hpr hpp => hnot p hpr (Or.inl hpp), ?_, fun ht => ht⟩
    apply h.withPending
    · intro p
      rw [Bool.or_eq_true, decide_eq_true_iff, h.taken, Set.mem_union, mem_pageRun]
      tauto
    · rintro p c a (hp | hp) hl hr
      · exact h.apart hp hl hr
      · exact hnot p hp (Or.inr ⟨c, a, hl, hr⟩)

theorem free_pages_spec {page n : Nat} (h : SlabOk A s own (pending ∪ pageRun page n))
    (hdis : ∀ p ∈ pageRun page n, p ∉ pending) : SlabOk A (free_pages s page n) own pending := by
  apply h.withPending s.tick
  · intro p
    rw [Bool.and_eq_true, Bool.not_eq_true', decide_eq_false_iff_not, h.taken, Set.mem_union,
      ← mem_pageRun]
    constructor
    · rintro ⟨h1, (h2 | h2) | h2⟩
      · exact Or.inl h2
      · exact absurd h2 h1
      · exact Or.inr h2
    · rintro (h1 | ⟨c, a, hl, hr⟩)
      · exact ⟨fun h2 => hdis p h2 h1, Or.inl (Or.inl h1)⟩
      · exact ⟨fun h2 => h.apart (Or.inr h2) hl hr, Or.inr ⟨c, a, hl, hr⟩⟩
  · exact fun hp hl => h.apart (Or.inl hp) hl

/-- Nothing is in a page that stands in no slab. -/
theorem SlabOk.pending_empty (h : SlabOk A s own pending) {p : Nat} (hp : p ∈ pending)
    (hlt : p < A.npage) : (∀ d, ¬ s.Obj d (page2kva p)) ∧ ∀ d, ¬ s.Listed d (page2kva p) := by
  have hobj : ∀ d, ¬ s.Obj d (page2kva p) := by
    rintro d ⟨b, j, hb, hj, -, he⟩
    obtain ⟨q, hq, hr⟩ := (h.slab hb).kva2page hj
    rw [← he, kva2page_page2kva hlt] at hq
    obtain rfl := Option.some_inj.1 hq
    exact h.apart hp hb hr
  refine ⟨hobj, ?_⟩
  intro d hd
  cases hoff : (slab_cache d).off_slab with
  | true => exact hobj _ ((h.obj _ _).2 (Or.inr ⟨d, hd, hoff, rfl⟩))
  | false =>
    have hself := (h.slab hd).on_slab hoff
    have hbase : p = s.base (page2kva p) := by
      unfold page2kva KERNBASE PGSIZE at hself
      unfold page2kva KERNBASE PGSIZE
      omega
    have hr : s.InRun d (page2kva p) (s.base (page2kva p)) := SlabAt.base_inRun d _
    rw [← hbase] at hr
    exact h.apart hp hd hr

/-! ## A new slab -/

/-- What `kmem_cache_grow` has made of pages and a place for the descriptor. -/
def newSlab (s : Slabs) (c page slabp : Nat) : Slabs :=
  addNotfull
    (initChain (setPages (initSlab s c page slabp) page (1 <<< (slab_cache c).page_order) c slabp)
      c slabp) c slabp

/-- The callers' objects, where the place for the descriptor is taken back. -/
def withoutDescriptor (own : Nat → Option Nat) (c slabp : Nat) : Nat → Option Nat :=
  if (slab_cache c).off_slab then update own slabp none else own

theorem newSlab_slab (s : Slabs) (c page slabp : Nat) :
    (newSlab s c page slabp).slab slabp =
      { s_mem := page2kva page + (slab_cache c).offset
        inuse := 0
        offset := (slab_cache c).offset
        free := 0
        bufctl := update (fun i => if i < (slab_cache c).num then i + 1 else (s.slab slabp).bufctl i)
          ((slab_cache c).num - 1) BUFCTL_END } := by
  simp [newSlab, addNotfull, initChain, setPages, initSlab, Slabs.edit]

theorem newSlab_other {c page slabp b : Nat} (hb : b ≠ slabp) :
    (newSlab s c page slabp).slab b = s.slab b := by
  simp [newSlab, addNotfull, initChain, setPages, initSlab, Slabs.edit, hb]

theorem newSlab_listed {c page slabp d b : Nat} :
    (newSlab s c page slabp).Listed d b ↔ d = c ∧ b = slabp ∨ s.Listed d b :=
  listed_addNotfull

theorem newSlab_page {c page slabp p : Nat} :
    (newSlab s c page slabp).page p =
      if page ≤ p ∧ p < page + 2 ^ (slab_cache c).page_order then ⟨true, c, slabp⟩
      else s.page p := by
  simp only [newSlab, addNotfull, initChain, setPages, initSlab, Slabs.edit, Nat.one_shiftLeft]

/-- The chain of a new slab has all its objects. -/
theorem newSlab_chain (s : Slabs) {c : Nat} (page slabp : Nat) (hc : c < SLAB_CACHE_NUM) :
    (newSlab s c page slabp).chain c slabp = List.range' 0 (slab_cache c).num ∧
      ChainOk (newSlab s c page slabp) c slabp := by
  have hpos := (cacheOk hc).num_pos
  obtain ⟨m, hm⟩ : ∃ m, (slab_cache c).num = m + 1 := ⟨(slab_cache c).num - 1, by omega⟩
  apply chainOk_of hc
  · rw [newSlab_slab]
    dsimp only
    rw [hm]
    apply chain_range m 0 (by omega) (n := m + 1)
    · intro i hi
      rw [update_of_ne (by omega), if_pos (by omega)]
    · rw [update_self]
  · exact List.nodup_range'
  · intro i hi
    rw [List.mem_range'_1] at hi
    omega
  · rw [newSlab_slab, List.length_range']
    rfl

section

variable {c page slabp : Nat}

theorem newSlab_base : (newSlab s c page slabp).base slabp = page := by
  unfold Slabs.base
  rw [newSlab_slab]
  unfold page2kva KERNBASE PGSIZE
  dsimp only
  omega

theorem newSlab_base_other {b : Nat} (hb : b ≠ slabp) :
    (newSlab s c page slabp).base b = s.base b := by
  unfold Slabs.base
  rw [newSlab_other hb]

theorem newSlab_inRun (p : Nat) : (newSlab s c page slabp).InRun c slabp p ↔
    p ∈ pageRun page (2 ^ (slab_cache c).page_order) := by
  unfold Slabs.InRun
  rw [newSlab_base]
  rfl

theorem newSlab_inRun_other {d b : Nat} (hb : b ≠ slabp) (p : Nat) :
    (newSlab s c page slabp).InRun d b p ↔ s.InRun d b p := by
  unfold Slabs.InRun
  rw [newSlab_base_other hb]

theorem newSlab_descriptor (d x : Nat) : (newSlab s c page slabp).Descriptor d x ↔
    s.Descriptor d x ∨
      x = slabp ∧ (slab_cache c).off_slab = true ∧ (slab_cache c).slab_cachep = d := by
  constructor
  · rintro ⟨e, he, ho, hd⟩
    rcases newSlab_listed.1 he with ⟨rfl, rfl⟩ | he
    · exact Or.inr ⟨rfl, ho, hd⟩
    · exact Or.inl ⟨e, he, ho, hd⟩
  · rintro (⟨e, he, ho, hd⟩ | ⟨rfl, ho, hd⟩)
    · exact ⟨e, newSlab_listed.2 (Or.inr he), ho, hd⟩
    · exact ⟨c, newSlab_listed.2 (Or.inl ⟨rfl, rfl⟩), ho, hd⟩

/-- A new slab has no object. -/
theorem newSlab_obj (h : SlabOk A s own pending) (hc : c < SLAB_CACHE_NUM)
    (hnot : ∀ d, ¬ s.Listed d slabp) (d x : Nat) :
    (newSlab s c page slabp).Obj d x ↔ s.Obj d x := by
  have hne : ∀ {d b}, s.Listed d b → b ≠ slabp := fun hb he => hnot _ (he ▸ hb)
  constructor
  · rintro ⟨b, i, hb, hi, hn, rfl⟩
    rcases newSlab_listed.1 hb with ⟨rfl, rfl⟩ | hb
    · rw [(newSlab_chain s page b hc).1, List.mem_range'_1] at hn
      exact absurd ⟨by omega, by omega⟩ hn
    · rw [((h.slab hb).chain.congr (newSlab_other (hne hb))).1] at hn
      refine ⟨b, i, hb, hi, hn, ?_⟩
      unfold Slabs.objAt
      rw [newSlab_other (hne hb)]
  · rintro ⟨b, i, hb, hi, hn, rfl⟩
    refine ⟨b, i, newSlab_listed.2 (Or.inr hb), hi, ?_, ?_⟩
    · rw [((h.slab hb).chain.congr (newSlab_other (hne hb))).1]
      exact hn
    · unfold Slabs.objAt
      rw [newSlab_other (hne hb)]

/-- The slabs beside the new one are where they were, on pages that are not among its own. -/
theorem newSlab_at_other (h : SlabOk A s own pending) {d b : Nat} (hb : s.Listed d b)
    (hne : b ≠ slabp)
    (hout : ∀ p ∈ pageRun page (2 ^ (slab_cache c).page_order), ¬ s.InRun d b p) :
    SlabAt A (newSlab s c page slabp) d b := by
  have hat := h.slab hb
  refine ⟨hat.cache, ?_, ?_, ?_, ?_, ?_, (hat.chain.congr (newSlab_other hne)).2⟩
  · rw [newSlab_other hne, newSlab_base_other hne]
    exact hat.s_mem
  · rw [newSlab_other hne]
    exact hat.offset
  · rw [newSlab_base_other hne]
    exact hat.inside
  · intro p hp
    rw [newSlab_inRun_other hne] at hp
    have hr : ¬ (page ≤ p ∧ p < page + 2 ^ (slab_cache c).page_order) := fun hr => hout p hr hp
    rw [newSlab_page, if_neg hr]
    exact hat.page p hp
  · rw [newSlab_base_other hne]
    exact hat.on_slab

end

theorem newSlab_spec {c page : Nat} (slabp : Nat)
    (h : SlabOk A s own (pending ∪ pageRun page (2 ^ (slab_cache c).page_order)))
    (hc : c < SLAB_CACHE_NUM) (hin : page + 2 ^ (slab_cache c).page_order ≤ A.npage)
    (hdis : ∀ p ∈ pageRun page (2 ^ (slab_cache c).page_order), p ∉ pending)
    (hoff : (slab_cache c).off_slab = true → own slabp = some (slab_cache c).slab_cachep)
    (hon : (slab_cache c).off_slab = false → slabp = page2kva page) :
    SlabOk A (newSlab s c page slabp) (withoutDescriptor own c slabp) pending ∧
      (Tidy s ∅ → Tidy (newSlab s c page slabp) {slabp}) := by
  have hpos := Nat.two_pow_pos (slab_cache c).page_order
  have hpage : page ∈ pageRun page (2 ^ (slab_cache c).page_order) := ⟨by omega, by omega⟩
  have hnot : ∀ d, ¬ s.Listed d slabp := by
    intro d
    cases ho : (slab_cache c).off_slab with
    | true => exact h.not_listed (hoff ho)
    | false =>
      rw [hon ho]
      exact (h.pending_empty (Or.inr hpage) (by omega)).2 d
  have hne : ∀ {d b}, s.Listed d b → b ≠ slabp := by
    rintro d b hb rfl
    exact hnot d hb
  have hnodesc : ∀ d, ¬ s.Descriptor d slabp := fun d ⟨e, he, _⟩ => hnot e he
  have hlists : ListsOk (newSlab s c page slabp) := by
    apply ListsOk.addNotfull
    · exact ⟨h.lists.full, h.lists.notfull, h.lists.apart⟩
    · exact hnot
  refine ⟨⟨hlists, ?_, ?_, ?_, ?_, ?_⟩, ?_⟩
  · intro d b hb
    rcases newSlab_listed.1 hb with ⟨rfl, rfl⟩ | hb
    · refine ⟨hc, ?_, ?_, ?_, ?_, ?_, (newSlab_chain s page b hc).2⟩
      · rw [newSlab_base, newSlab_slab]
      · rw [newSlab_slab]
      · rw [newSlab_base]
        exact hin
      · intro p hp
        rw [newSlab_page]
        exact if_pos ((newSlab_inRun p).1 hp)
      · rw [newSlab_base]
        exact hon
    · exact newSlab_at_other h hb (hne hb) fun p hr hp => h.apart (Or.inr hr) hb hp
  · intro d x
    rw [newSlab_obj h hc hnot, h.obj, newSlab_descriptor]
    unfold withoutDescriptor
    cases ho : (slab_cache c).off_slab with
    | true =>
      rw [if_pos rfl]
      by_cases hx : x = slabp
      · subst hx
        rw [update_self, hoff ho]
        simp [hnodesc]
      · rw [update_of_ne hx]
        simp [hx]
    | false => simp
  · intro d x hd
    unfold withoutDescriptor
    cases ho : (slab_cache c).off_slab with
    | true =>
      rw [if_pos rfl]
      by_cases hx : x = slabp
      · rw [hx, update_self]
      · rw [update_of_ne hx]
        rcases (newSlab_descriptor d x).1 hd with hd | ⟨rfl, -⟩
        · exact h.excl hd
        · exact absurd rfl hx
    | false =>
      rw [if_neg Bool.false_ne_true]
      rcases (newSlab_descriptor d x).1 hd with hd | ⟨-, ho', -⟩
      · exact h.excl hd
      · rw [ho] at ho'
        cases ho'
  · intro p
    change s.taken p = true ↔ _
    rw [h.taken, Set.mem_union, or_assoc]
    refine or_congr_right ?_
    constructor
    · rintro (hp | ⟨d, b, hb, hp⟩)
      · exact ⟨c, slabp, newSlab_listed.2 (Or.inl ⟨rfl, rfl⟩), (newSlab_inRun p).2 hp⟩
      · exact ⟨d, b, newSlab_listed.2 (Or.inr hb), (newSlab_inRun_other (hne hb) p).2 hp⟩
    · rintro ⟨d, b, hb, hp⟩
      rcases newSlab_listed.1 hb with ⟨rfl, rfl⟩ | hb
      · exact Or.inl ((newSlab_inRun p).1 hp)
      · exact Or.inr ⟨d, b, hb, (newSlab_inRun_other (hne hb) p).1 hp⟩
  · intro p d b hp hb hr
    rcases newSlab_listed.1 hb with ⟨rfl, rfl⟩ | hb
    · exact hdis p ((newSlab_inRun p).1 hr) hp
    · exact h.apart (Or.inl hp) hb ((newSlab_inRun_other (hne hb) p).1 hr)
  · intro ht
    apply ht.edit
    · exact fun b (_ : b ≠ slabp) _ => Set.notMem_empty b
    · exact fun b hb => newSlab_other hb
    · exact fun d b _ hm => hm
    · intro d b hb hm
      rcases mem_addNotfull.1 hm with ⟨-, he⟩ | hm
      · exact absurd he hb
      · exact hm
    · exact fun hn => absurd rfl hn

/-! ## Allocation -/

/-- What an allocation in a cache may come to: no object, or one that nobody holds. -/
def AllocSpec (A : PageAllocator) (r : Option (Option Nat × Slabs)) (own : Nat → Option Nat)
    (pending : Set Nat) (c : Nat) : Prop :=
  (∃ s', r = some (none, s') ∧ SlabOk A s' own pending ∧ Tidy s' ∅) ∨
  ∃ x s', r = some (some x, s') ∧ own x = none ∧
    SlabOk A s' (update own x (some c)) pending ∧ Tidy s' ∅

theorem kmem_cache_grow_spec {alloc : Slabs → Nat → Option (Option Nat × Slabs)} {c : Nat}
    (hc : c < SLAB_CACHE_NUM)
    (halloc : (slab_cache c).off_slab = true → ∀ {s pending}, SlabOk A s own pending → Tidy s ∅ →
      AllocSpec A (alloc s (slab_cache c).slab_cachep) own pending (slab_cache c).slab_cachep)
    (h : SlabOk A s own pending) (ht : Tidy s ∅) :
    (∃ s', kmem_cache_grow A alloc s c = some (false, s') ∧ SlabOk A s' own pending ∧ Tidy s' ∅) ∨
    ∃ s' a rest, kmem_cache_grow A alloc s c = some (true, s') ∧ SlabOk A s' own pending ∧
      Tidy s' {a} ∧ s'.notfull c = a :: rest ∧ (s'.slab a).inuse = 0 := by
  unfold kmem_cache_grow
  dsimp only
  rcases alloc_pages_spec h (1 <<< (slab_cache c).page_order) with
    ⟨s1, he, hok, ht'⟩ | ⟨page, s1, he, hin, hdis, hok, ht'⟩
  · rw [he]
    exact Or.inl ⟨s1, rfl, hok, ht' ht⟩
  · rw [he]
    have hpos := Nat.two_pow_pos (slab_cache c).page_order
    rw [Nat.one_shiftLeft] at hin hdis hok
    have hpage : page < A.npage := by omega
    dsimp only
    unfold kmem_cache_slabmgmt
    rw [if_pos hpage]
    cases hoff : (slab_cache c).off_slab with
    | true =>
      rw [if_pos rfl]
      rcases halloc hoff hok (ht' ht) with ⟨s2, ha, hok2, ht2⟩ | ⟨x, s2, ha, hx, hok2, ht2⟩
      · rw [ha]
        refine Or.inl ⟨_, rfl, ?_, ht2⟩
        rw [Nat.one_shiftLeft]
        exact free_pages_spec hok2 hdis
      · rw [ha]
        obtain ⟨hok3, ht3⟩ := newSlab_spec x hok2 hc hin hdis
          (fun _ => update_self x _ own) (fun hon => by rw [hoff] at hon; cases hon)
        have hback : withoutDescriptor (update own x (some (slab_cache c).slab_cachep)) c x = own := by
          unfold withoutDescriptor
          rw [hoff, if_pos rfl, update_idem, ← hx, update_eq_self]
        rw [hback] at hok3
        refine Or.inr ⟨_, x, s2.notfull c, rfl, hok3, ht3 ht2, ?_, ?_⟩
        · exact update_self _ _ _
        · exact congrArg Slab.inuse (newSlab_slab s2 c page x)
    | false =>
      rw [if_neg Bool.false_ne_true]
      obtain ⟨hok3, ht3⟩ := newSlab_spec (page2kva page) hok hc hin hdis
        (fun hon => by rw [hoff] at hon; cases hon) (fun _ => rfl)
      have hback : withoutDescriptor own c (page2kva page) = own := by
        unfold withoutDescriptor
        rw [hoff, if_neg Bool.false_ne_true]
      rw [hback] at hok3
      refine Or.inr ⟨_, page2kva page, s1.notfull c, rfl, hok3, ht3 (ht' ht), ?_, ?_⟩
      · exact update_self _ _ _
      · exact congrArg Slab.inuse (newSlab_slab s1 c page (page2kva page))

/-- The two tries of a cache, where the call for a descriptor is right. -/
theorem kmem_cache_alloc_tries {c rounds : Nat} (hc : c < SLAB_CACHE_NUM)
    (halloc : (slab_cache c).off_slab = true → ∀ {s pending}, SlabOk A s own pending → Tidy s ∅ →
      AllocSpec A (kmem_cache_alloc A (rounds + 1) s (slab_cache c).slab_cachep) own pending
        (slab_cache c).slab_cachep)
    (h : SlabOk A s own pending) (ht : Tidy s ∅) :
    AllocSpec A (kmem_cache_alloc A (rounds + 2) s c) own pending c := by
  rw [kmem_cache_alloc]
  split
  · next a rest hl =>
    have hm : a ∈ s.notfull c := by
      rw [hl]
      exact List.mem_cons_self
    obtain ⟨x, s', he, hx, hok, ht'⟩ := alloc_one_spec h hm ((ht c a (Set.notMem_empty a)).2.1 hm) ht
    rw [Set.empty_sdiff] at ht'
    refine Or.inr ⟨x, s', ?_, hx, hok, ht'⟩
    simp only [he]
  · rcases kmem_cache_grow_spec hc halloc h ht with
      ⟨s', he, hok, ht'⟩ | ⟨s', a, rest, he, hok, ht', hl, hz⟩
    · rw [he]
      exact Or.inl ⟨s', rfl, hok, ht'⟩
    · rw [he]
      dsimp only
      have hm : a ∈ s'.notfull c := by
        rw [hl]
        exact List.mem_cons_self
      have hroom : (s'.slab a).inuse < (slab_cache c).num := by
        rw [hz]
        exact (cacheOk hc).num_pos
      obtain ⟨x, s2, he2, hx, hok2, ht2⟩ := alloc_one_spec hok hm hroom ht'
      rw [Set.sdiff_self] at ht2
      refine Or.inr ⟨x, s2, ?_, hx, hok2, ht2⟩
      rw [kmem_cache_alloc]
      simp only [hl, he2]

/-- The descriptors come from caches that keep theirs in the slab, so the calls end. -/
theorem kmem_cache_alloc_spec {c : Nat} (hc : c < SLAB_CACHE_NUM) (h : SlabOk A s own pending)
    (ht : Tidy s ∅) : AllocSpec A (kmem_cache_alloc A ROUNDS s c) own pending c := by
  apply kmem_cache_alloc_tries hc _ h ht
  intro hoff s pending h ht
  obtain ⟨hlt, hon, -⟩ := (cacheOk hc).off_slab hoff
  apply kmem_cache_alloc_tries hlt _ h ht
  intro hoff'
  rw [hon] at hoff'
  cases hoff'

/-! ## Release -/

/-- A step that gives slabs up: the others stay where they are, and the counter of a slab that
is given up is at 0. -/
structure Shrinks (s s' : Slabs) : Prop where
  listed : ∀ {c a}, s'.Listed c a → s.Listed c a
  s_mem : ∀ b, (s'.slab b).s_mem = (s.slab b).s_mem
  offset : ∀ b, (s'.slab b).offset = (s.slab b).offset
  gone : ∀ {c a}, s.Listed c a → ¬ s'.Listed c a → (s'.slab a).inuse = 0
  others : ∀ {b}, (∀ c, ¬ s.Listed c b) → s'.slab b = s.slab b

theorem Shrinks.trans {s'' : Slabs} (h : SlabOk A s own pending) (h1 : Shrinks s s')
    (h2 : Shrinks s' s'') : Shrinks s s'' where
  listed hl := h1.listed (h2.listed hl)
  s_mem b := (h2.s_mem b).trans (h1.s_mem b)
  offset b := (h2.offset b).trans (h1.offset b)
  gone {c a} hl hn := by
    by_cases hm : s'.Listed c a
    · exact h2.gone hm hn
    · rw [h2.others]
      · exact h1.gone hl hm
      · intro d hd
        obtain rfl := h.cache_unique hl (h1.listed hd)
        exact hm hd
  others hn := (h2.others fun c hl => hn c (h1.listed hl)).trans (h1.others hn)

/-- The state after an object went back into the chain of its slab. -/
def giveBack (s : Slabs) (a i : Nat) : Slabs :=
  s.edit a fun sl =>
    { sl with
      bufctl := update sl.bufctl i sl.free
      free := i
      inuse := sl.inuse - 1 }

theorem giveBack_slab (s : Slabs) (a i : Nat) :
    (giveBack s a i).slab a =
      { s.slab a with
        bufctl := update (s.slab a).bufctl i (s.slab a).free
        free := i
        inuse := (s.slab a).inuse - 1 } := update_self _ _ _

theorem giveBack_other {a b i : Nat} (hb : b ≠ a) : (giveBack s a i).slab b = s.slab b :=
  update_of_ne hb _ _

theorem giveBack_same (s : Slabs) (a i : Nat) : SameSlabs s (giveBack s a i) :=
  SameSlabs.edit rfl rfl

theorem giveBack_spec (h : SlabOk A s own pending) {c a i : Nat} (hl : s.Listed c a)
    (hi : i < (slab_cache c).num) (hn : i ∉ s.chain c a) (hpos : 0 < (s.slab a).inuse)
    (hx : own (s.objAt c a i) = some c) :
    SlabOk A (giveBack s a i) (update own (s.objAt c a i) none) pending := by
  have hat := h.slab hl
  have hs := giveBack_same s a i
  have huniq : ∀ d, s.Listed d a → d = c := fun d hd => h.cache_unique hd hl
  obtain ⟨hc1, hok1⟩ : (giveBack s a i).chain c a = i :: s.chain c a ∧
      ChainOk (giveBack s a i) c a := by
    apply chainOk_of hat.cache
    · rw [giveBack_slab]
      exact hat.chain.linked.push hn
    · exact List.nodup_cons.2 ⟨hn, hat.chain.nodup⟩
    · intro j hj
      rcases List.mem_cons.1 hj with rfl | hj
      · exact hi
      · exact hat.chain.bound j hj
    · have hcount := hat.chain.count
      rw [giveBack_slab, List.length_cons]
      dsimp only
      omega
  have hgone : ∀ d, ¬ (giveBack s a i).Obj d (s.objAt c a i) := by
    rintro d ⟨b, j, hb, hj, hnj, he⟩
    rw [hs.objAt] at he
    obtain ⟨rfl, rfl, rfl⟩ := h.obj_unique hl ((hs.listed d b).1 hb) hi hj he
    rw [hc1] at hnj
    exact hnj List.mem_cons_self
  have hback : SameSlabs (giveBack s a i) s :=
    ⟨fun _ _ => Iff.rfl, rfl, rfl, fun b => (hs.s_mem b).symm, fun b => (hs.offset b).symm⟩
  have hobj : ∀ d y, s.Obj d y ↔
      (giveBack s a i).Obj d y ∨ d = c ∧ y = s.objAt c a i := by
    intro d y
    rw [hback.obj hl hi huniq (fun b hb => (giveBack_other hb).symm) hc1 hok1.nodup, hs.objAt]
  apply h.change hs ⟨h.lists.full, h.lists.notfull, h.lists.apart⟩
  · intro d b hb
    by_cases hba : b = a
    · subst hba
      obtain rfl := huniq d hb
      exact hok1
    · exact ((h.slab hb).chain.congr (giveBack_other hba)).2
  · intro d y
    by_cases hy : y = s.objAt c a i
    · subst hy
      rw [update_self]
      constructor
      · exact fun ho => absurd ho (hgone d)
      · rintro (ho | ho)
        · cases ho
        · rw [h.excl ho] at hx
          cases hx
    · rw [update_of_ne hy, ← h.obj, hobj]
      simp [hy]
  · intro d y hd
    by_cases hy : y = s.objAt c a i
    · rw [hy, update_self]
    · rw [update_of_ne hy]
      exact h.excl hd

/-- What is left when a slab with no object is taken down. -/
def dropSlab (s : Slabs) (c a : Nat) : Slabs :=
  free_pages (clearPages (list_del s a) (s.base a) (1 <<< (slab_cache c).page_order)) (s.base a)
    (1 <<< (slab_cache c).page_order)

/-- The callers' objects, where the place of the descriptor comes back. -/
def withDescriptor (own : Nat → Option Nat) (c a : Nat) : Nat → Option Nat :=
  if (slab_cache c).off_slab then update own a (some (slab_cache c).slab_cachep) else own

theorem dropSlab_listed (h : ListsOk s) {c a d b : Nat} :
    (dropSlab s c a).Listed d b ↔ b ≠ a ∧ s.Listed d b := by
  rw [← h.listed_del]
  simp only [Slabs.Listed, dropSlab, free_pages, clearPages]

/-- With nothing in use every index is in the chain. -/
theorem ChainOk.mem_of_empty {c a i : Nat} (h : ChainOk s c a) (hz : (s.slab a).inuse = 0)
    (hi : i < (slab_cache c).num) : i ∈ s.chain c a := by
  have hcount := h.count
  have hsub : s.chain c a ⊆ List.range (slab_cache c).num :=
    fun j hj => List.mem_range.2 (h.bound j hj)
  have hperm : (s.chain c a).Perm (List.range (slab_cache c).num) := by
    apply (List.subperm_of_subset h.nodup hsub).perm_of_length_le
    rw [List.length_range]
    omega
  exact hperm.mem_iff.2 (List.mem_range.2 hi)

/-- A slab with nothing in use has no object. -/
theorem dropSlab_obj (h : SlabOk A s own pending) {c a : Nat} (hz : (s.slab a).inuse = 0)
    (d y : Nat) : (dropSlab s c a).Obj d y ↔ s.Obj d y := by
  constructor
  · rintro ⟨b, j, hb, hj, hn, rfl⟩
    exact ⟨b, j, ((dropSlab_listed h.lists).1 hb).2, hj, hn, rfl⟩
  · rintro ⟨b, j, hb, hj, hn, rfl⟩
    refine ⟨b, j, (dropSlab_listed h.lists).2 ⟨?_, hb⟩, hj, hn, rfl⟩
    rintro rfl
    exact hn ((h.slab hb).chain.mem_of_empty hz hj)

theorem dropSlab_descriptor (h : ListsOk s) {c a : Nat} (d y : Nat) :
    (dropSlab s c a).Descriptor d y ↔ y ≠ a ∧ s.Descriptor d y := by
  unfold Slabs.Descriptor
  simp only [dropSlab_listed h]
  tauto

/-- The place where the descriptor was is an object of the cache that it came from. -/
theorem SlabOk.withDescriptor_self (h : SlabOk A s own pending) {c a : Nat} (hl : s.Listed c a)
    (d : Nat) : own a = some d ∨ s.Descriptor d a ↔ withDescriptor own c a a = some d := by
  unfold withDescriptor
  have huniq : ∀ e, s.Listed e a → e = c := fun e he => h.cache_unique he hl
  cases hoff : (slab_cache c).off_slab with
  | true =>
    rw [if_pos rfl, update_self, h.excl ⟨c, hl, hoff, rfl⟩]
    constructor
    · rintro (h1 | ⟨e, he, -, hd⟩)
      · cases h1
      · rw [← huniq e he]
        exact congrArg some hd
    · exact fun h1 => Or.inr ⟨c, hl, hoff, Option.some_inj.1 h1⟩
  | false =>
    rw [if_neg Bool.false_ne_true]
    constructor
    · rintro (h1 | ⟨e, he, ho, -⟩)
      · exact h1
      · rw [huniq e he, hoff] at ho
        cases ho
    · exact Or.inl

theorem withDescriptor_other {c a y : Nat} (hy : y ≠ a) : withDescriptor own c a y = own y := by
  unfold withDescriptor
  split
  · exact update_of_ne hy _ _
  · rfl

theorem dropSlab_spec (h : SlabOk A s own pending) {c a : Nat} (hl : s.Listed c a)
    (hz : (s.slab a).inuse = 0) :
    SlabOk A (dropSlab s c a) (withDescriptor own c a) pending ∧
      (Tidy s {a} → Tidy (dropSlab s c a) ∅) := by
  have hrun : ∀ p, s.InRun c a p ↔
      s.base a ≤ p ∧ p < s.base a + 1 <<< (slab_cache c).page_order := by
    intro p
    rw [Nat.one_shiftLeft]
    rfl
  have hother : ∀ {d b p}, (dropSlab s c a).Listed d b → s.InRun d b p → ¬ s.InRun c a p := by
    intro d b p hb hp hq
    obtain ⟨hne, hb⟩ := (dropSlab_listed h.lists).1 hb
    exact hne (h.run_unique hb hl hp hq).2
  have hlists : ListsOk (dropSlab s c a) := by
    have hdel := h.lists.del a
    exact ⟨hdel.full, hdel.notfull, hdel.apart⟩
  refine ⟨⟨hlists, ?_, ?_, ?_, ?_, ?_⟩, ?_⟩
  · intro d b hb
    have hat := h.slab ((dropSlab_listed h.lists).1 hb).2
    refine ⟨hat.cache, hat.s_mem, hat.offset, hat.inside, ?_, hat.on_slab,
      ⟨hat.chain.linked, hat.chain.nodup, hat.chain.bound, hat.chain.count⟩⟩
    intro p hp
    have hout := hother hb hp
    rw [hrun] at hout
    refine Eq.trans ?_ (hat.page p hp)
    exact if_neg hout
  · intro d y
    rw [dropSlab_obj h hz, h.obj, dropSlab_descriptor h.lists]
    by_cases hy : y = a
    · subst hy
      rw [h.withDescriptor_self hl]
      simp
    · rw [withDescriptor_other hy]
      simp [hy]
  · intro d y hd
    obtain ⟨hy, hd⟩ := (dropSlab_descriptor h.lists d y).1 hd
    rw [withDescriptor_other hy]
    exact h.excl hd
  · intro p
    change (!decide _ && s.taken p) = true ↔ _
    rw [Bool.and_eq_true, Bool.not_eq_true', decide_eq_false_iff_not, h.taken, ← hrun]
    constructor
    · rintro ⟨h1, h2 | ⟨d, b, hb, hp⟩⟩
      · exact Or.inl h2
      · refine Or.inr ⟨d, b, (dropSlab_listed h.lists).2 ⟨?_, hb⟩, hp⟩
        rintro rfl
        obtain rfl := h.cache_unique hb hl
        exact h1 hp
    · rintro (h1 | ⟨d, b, hb, hp⟩)
      · exact ⟨h.apart h1 hl, Or.inl h1⟩
      · exact ⟨hother hb hp, Or.inr ⟨d, b, ((dropSlab_listed h.lists).1 hb).2, hp⟩⟩
  · intro p d b hp hb hr
    exact h.apart hp ((dropSlab_listed h.lists).1 hb).2 hr
  · intro ht
    apply ht.edit
    · exact fun b hb _ => hb
    · exact fun _ _ => rfl
    · exact fun d b _ hm => (h.lists.mem_del_full.1 hm).2
    · exact fun d b _ hm => (h.lists.mem_del_notfull.1 hm).2
    · intro _ d
      refine ⟨?_, ?_, ?_⟩
      · intro hm
        exact absurd rfl (h.lists.mem_del_full.1 hm).1
      · intro hm
        exact absurd rfl (h.lists.mem_del_notfull.1 hm).1
      · intro hm
        exact absurd rfl ((dropSlab_listed h.lists).1 hm).1

/-- The slab finds its pages, and they have the flag. -/
theorem SlabOk.destroy_finds (h : SlabOk A s own pending) {c a : Nat} (hl : s.Listed c a) :
    kva2page A ((s.slab a).s_mem - (s.slab a).offset) = some (s.base a) ∧
      ∀ i < 1 <<< (slab_cache c).page_order, (s.page (s.base a + i)).isSlab = true := by
  have hat := h.slab hl
  have hpos := Nat.two_pow_pos (slab_cache c).page_order
  have hin := hat.inside
  constructor
  · rw [hat.offset, hat.s_mem, Nat.add_sub_cancel]
    exact kva2page_page2kva (by omega)
  · intro i hi
    rw [Nat.one_shiftLeft] at hi
    rw [hat.page _ ⟨by omega, by omega⟩]

theorem giveBack_tidy {a i : Nat} (ht : Tidy s ∅) : Tidy (giveBack s a i) {a} := by
  intro d b hb
  rw [giveBack_other hb]
  exact ht d b (Set.notMem_empty b)

/-- What a release comes to: the object has no holder, and some slabs may be given up. -/
def FreeSpec (A : PageAllocator) (r : Option Slabs) (s : Slabs) (own : Nat → Option Nat)
    (pending : Set Nat) (x : Nat) : Prop :=
  ∃ s', r = some s' ∧ SlabOk A s' (update own x none) pending ∧ Tidy s' ∅ ∧ Shrinks s s'

/-- A slab whose last object went back is taken down, and its descriptor freed. -/
theorem kmem_slab_destroy_spec {free : Slabs → Nat → Nat → Option Slabs} {c a : Nat}
    (hfree : (slab_cache c).off_slab = true → ∀ {s own x}, SlabOk A s own pending → Tidy s ∅ →
      own x = some (slab_cache c).slab_cachep →
      FreeSpec A (free s (slab_cache c).slab_cachep x) s own pending x)
    (h : SlabOk A s own pending) (hl : s.Listed c a) (hz : (s.slab a).inuse = 0)
    (ht : Tidy s {a}) :
    ∃ s', kmem_slab_destroy A free (list_del s a) c a = some s' ∧ SlabOk A s' own pending ∧
      Tidy s' ∅ ∧ Shrinks s s' := by
  obtain ⟨hpage, hflags⟩ := h.destroy_finds hl
  obtain ⟨hok, htidy⟩ := dropSlab_spec h hl hz
  have hshrink : Shrinks s (dropSlab s c a) := by
    refine ⟨fun hm => ((dropSlab_listed h.lists).1 hm).2, fun _ => rfl, fun _ => rfl, ?_,
      fun _ => rfl⟩
    intro d b hb hn
    by_cases hba : b = a
    · rw [hba]
      exact hz
    · exact absurd ((dropSlab_listed h.lists).2 ⟨hba, hb⟩) hn
  have hrun : kmem_slab_destroy A free (list_del s a) c a =
      if (slab_cache c).off_slab then free (dropSlab s c a) (slab_cache c).slab_cachep a
      else some (dropSlab s c a) := by
    unfold kmem_slab_destroy
    simp only [list_del] at *
    rw [hpage]
    exact if_pos hflags
  rw [hrun]
  unfold withDescriptor at hok
  cases hoff : (slab_cache c).off_slab with
  | true =>
    rw [hoff, if_pos rfl] at hok
    obtain ⟨s', he, hok', ht', hsh⟩ := hfree hoff hok (htidy ht) (update_self _ _ _)
    rw [update_idem, ← h.excl ⟨c, hl, hoff, rfl⟩, update_eq_self] at hok'
    exact ⟨s', he, hok', ht', hshrink.trans h hsh⟩
  | false =>
    rw [hoff, if_neg Bool.false_ne_true] at hok
    exact ⟨_, rfl, hok, htidy ht, hshrink⟩

theorem kmem_cache_free_tries {c rounds x : Nat} (hc : c < SLAB_CACHE_NUM)
    (hfree : (slab_cache c).off_slab = true → ∀ {s own x}, SlabOk A s own pending → Tidy s ∅ →
      own x = some (slab_cache c).slab_cachep →
      FreeSpec A (kmem_cache_free A rounds s (slab_cache c).slab_cachep x) s own pending x)
    (h : SlabOk A s own pending) (ht : Tidy s ∅) (hx : own x = some c) :
    FreeSpec A (kmem_cache_free A (rounds + 1) s c x) s own pending x := by
  obtain ⟨a, i, hl, hi, hn, rfl⟩ := (h.obj c x).2 (Or.inl hx)
  obtain ⟨p, hp, hr⟩ := (h.slab hl).kva2page hi
  have huniq : ∀ d, s.Listed d a → d = c := fun d hd => h.cache_unique hd hl
  have hnr : (s.objAt c a i - (s.slab a).s_mem) >>> (slab_cache c).objsize_shift = i := by
    unfold Slabs.objAt
    rw [Nat.add_sub_cancel_left, (cacheOk hc).objsize, Nat.shiftRight_eq_div_pow]
    exact Nat.mul_div_cancel i (Nat.two_pow_pos _)
  obtain ⟨h1, h2, h3⟩ := ht c a (Set.notMem_empty a)
  have hpos := h3 hl
  have hok := giveBack_spec h hl hi hn hpos hx
  have hlg : (giveBack s a i).Listed c a := hl
  have hinuse : ((giveBack s a i).slab a).inuse = (s.slab a).inuse - 1 := by rw [giveBack_slab]
  have hshrink : Shrinks s (giveBack s a i) := by
    refine ⟨fun hm => hm, (giveBack_same s a i).s_mem, (giveBack_same s a i).offset,
      fun hb hnb => absurd hb hnb, ?_⟩
    intro b hb
    apply giveBack_other
    rintro rfl
    exact hb c hl
  have hrun : kmem_cache_free A (rounds + 1) s c (s.objAt c a i) =
      if ((giveBack s a i).slab a).inuse = 0 then
        kmem_slab_destroy A (kmem_cache_free A rounds) (list_del (giveBack s a i) a) c a
      else if ((giveBack s a i).slab a).inuse = (slab_cache c).num - 1 then
        some (addNotfull (list_del (giveBack s a i) a) c a)
      else some (giveBack s a i) := by
    rw [kmem_cache_free]
    simp only [hp, (h.slab hl).page p hr, if_true]
    unfold kmem_cache_free_one
    rw [hnr]
    rfl
  rw [hrun]
  by_cases hz : ((giveBack s a i).slab a).inuse = 0
  · rw [if_pos hz]
    obtain ⟨s', he, hok', ht', hsh⟩ := kmem_slab_destroy_spec hfree hok hlg hz (giveBack_tidy ht)
    exact ⟨s', he, hok', ht', hshrink.trans h hsh⟩
  · rw [if_neg hz]
    have hcount := (h.slab hl).chain.count
    by_cases hlast : ((giveBack s a i).slab a).inuse = (slab_cache c).num - 1
    · rw [if_pos hlast]
      have hmove : SameSlabs (giveBack s a i) (addNotfull (list_del (giveBack s a i) a) c a) :=
        (SameSlabs.refl _).toNotfull hok.lists hlg huniq
      refine ⟨_, rfl, hok.relist hmove rfl
        ((hok.lists.del a).addNotfull (hok.lists.del_not_listed a)), ?_, ?_⟩
      · apply (giveBack_tidy (a := a) (i := i) ht).edit fun b hb _ => hb
        · exact fun _ _ => rfl
        · exact fun d b _ hf => (hok.lists.mem_del_full.1 hf).2
        · intro d b hba hf
          rcases mem_addNotfull.1 hf with ⟨-, he⟩ | hf
          · exact absurd he hba
          · exact (hok.lists.mem_del_notfull.1 hf).2
        · intro _ d
          change (_ → ((giveBack s a i).slab a).inuse = _) ∧
            (_ → ((giveBack s a i).slab a).inuse < _) ∧ (_ → 0 < ((giveBack s a i).slab a).inuse)
          refine ⟨?_, ?_, fun _ => by omega⟩
          · intro hf
            exact absurd rfl (hok.lists.mem_del_full.1 hf).1
          · intro hf
            rcases mem_addNotfull.1 hf with ⟨rfl, -⟩ | hf
            · omega
            · exact absurd rfl (hok.lists.mem_del_notfull.1 hf).1
      · refine ⟨fun hm => hshrink.listed ((hmove.listed _ _).1 hm), hshrink.s_mem, hshrink.offset,
          ?_, hshrink.others⟩
        intro d b hb hnb
        exact absurd ((hmove.listed d b).2 hb) hnb
    · rw [if_neg hlast]
      refine ⟨_, rfl, hok, ?_, hshrink⟩
      apply (giveBack_tidy (a := a) (i := i) ht).edit (fun b hb _ => hb) (fun _ _ => rfl)
        (fun d b _ hf => hf) fun d b _ hf => hf
      intro _ d
      refine ⟨?_, ?_, fun _ => by omega⟩
      · intro hf
        obtain rfl := huniq d (Or.inl hf)
        have hnum := h1 hf
        omega
      · intro hf
        obtain rfl := huniq d (Or.inr hf)
        have hnum := h2 hf
        omega

theorem kmem_cache_free_spec {c x : Nat} (hc : c < SLAB_CACHE_NUM) (h : SlabOk A s own pending)
    (ht : Tidy s ∅) (hx : own x = some c) :
    FreeSpec A (kmem_cache_free A ROUNDS s c x) s own pending x := by
  apply kmem_cache_free_tries hc _ h ht hx
  intro hoff s own x h ht hx
  obtain ⟨hlt, hon, -⟩ := (cacheOk hc).off_slab hoff
  apply kmem_cache_free_tries hlt _ h ht hx
  intro hoff'
  rw [hon] at hoff'
  cases hoff'

end nehcpu.kernel.kmem
