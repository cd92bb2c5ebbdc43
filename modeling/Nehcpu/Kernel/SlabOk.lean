-- What the slab allocator keeps over any calls: the live objects are apart, and the slabs, their
-- chains and their pages tell what is allocated.
import Mathlib.Tactic.Ring
import Nehcpu.Kernel.SlabSteps

namespace nehcpu.kernel.kmem

open Function nehcpu.chain

variable {A : PageAllocator} {s s' : Slabs} {own : Nat → Option Nat} {pending : Set Nat}

/-! ## Memory -/

/-- The pages of two slabs stand one after the other. -/
theorem SlabOk.runs_apart (h : SlabOk A s own pending) {c d a b : Nat} (ha : s.Listed c a)
    (hb : s.Listed d b) (hne : a ≠ b) :
    s.base a + 2 ^ (slab_cache c).page_order ≤ s.base b ∨
      s.base b + 2 ^ (slab_cache d).page_order ≤ s.base a := by
  have h1 := Nat.two_pow_pos (slab_cache c).page_order
  have h2 := Nat.two_pow_pos (slab_cache d).page_order
  by_contra hover
  apply hne
  rcases Nat.le_total (s.base a) (s.base b) with hle | hle
  · exact (h.run_unique ha hb (p := s.base b) ⟨hle, by omega⟩ ⟨Nat.le_refl _, by omega⟩).2
  · exact (h.run_unique ha hb (p := s.base a) ⟨Nat.le_refl _, by omega⟩ ⟨hle, by omega⟩).2

theorem page2kva_mono {p q : Nat} (h : p ≤ q) : page2kva p ≤ page2kva q :=
  Nat.add_le_add_left (Nat.mul_le_mul_right _ h) _

/-- Two objects do not share a byte. -/
theorem SlabOk.objs_apart (h : SlabOk A s own pending) {c d a b i j : Nat} (ha : s.Listed c a)
    (hb : s.Listed d b) (hi : i < (slab_cache c).num) (hj : j < (slab_cache d).num)
    (hne : s.objAt c a i ≠ s.objAt d b j) :
    s.objAt c a i + (slab_cache c).objsize ≤ s.objAt d b j ∨
      s.objAt d b j + (slab_cache d).objsize ≤ s.objAt c a i := by
  by_cases hab : a = b
  · subst hab
    obtain rfl := h.cache_unique ha hb
    have hmul : ∀ {m n : Nat}, m < n →
        s.objAt c a m + (slab_cache c).objsize ≤ s.objAt c a n := by
      intro m n hmn
      unfold Slabs.objAt
      rw [Nat.add_assoc, ← Nat.succ_mul]
      exact Nat.add_le_add_left (Nat.mul_le_mul_right _ hmn) _
    rcases Nat.lt_trichotomy i j with hlt | rfl | hlt
    · exact Or.inl (hmul hlt)
    · exact absurd rfl hne
    · exact Or.inr (hmul hlt)
  · obtain ⟨h1, h2⟩ := (h.slab ha).objAt_range hi
    obtain ⟨h3, h4⟩ := (h.slab hb).objAt_range hj
    rcases h.runs_apart ha hb hab with hle | hle
    · have := page2kva_mono hle
      exact Or.inl (by omega)
    · have := page2kva_mono hle
      exact Or.inr (by omega)

/-- No object that a caller holds shares a byte with a descriptor and its array. -/
theorem SlabOk.mgmt_apart (h : SlabOk A s own pending) {c d x b : Nat} (hx : own x = some c)
    (hb : s.Listed d b) :
    x + (slab_cache c).objsize ≤ b ∨ b + slab_mgmt_size (slab_cache d).num ≤ x := by
  obtain ⟨a, i, ha, hi, -, rfl⟩ := (h.obj c x).2 (Or.inl hx)
  have hd := cacheOk (h.slab hb).cache
  cases hoff : (slab_cache d).off_slab with
  | true =>
    obtain ⟨e, j, he, hj, -, hbe⟩ := (h.obj _ b).2 (Or.inr ⟨d, hb, hoff, rfl⟩)
    have hne : s.objAt c a i ≠ b := by
      intro hab
      rw [hab] at hx
      exact h.not_listed hx hb
    have hroom := (hd.off_slab hoff).2.2
    rw [hbe] at hne ⊢
    rcases h.objs_apart ha he hi hj hne with hle | hle
    · exact Or.inl hle
    · exact Or.inr (by omega)
  | false =>
    have hself := (h.slab hb).on_slab hoff
    have hroom := hd.on_slab hoff
    obtain ⟨h1, h2⟩ := (h.slab ha).objAt_range hi
    by_cases hab : a = b
    · subst hab
      obtain rfl := h.cache_unique ha hb
      exact Or.inr (by omega)
    · have hfits := hd.fits
      rcases h.runs_apart ha hb hab with hle | hle
      · have := page2kva_mono hle
        exact Or.inl (by omega)
      · have := page2kva_mono hle
        have hend : page2kva (s.base b) + PGSIZE * 2 ^ (slab_cache d).page_order =
            page2kva (s.base b + 2 ^ (slab_cache d).page_order) := by
          unfold page2kva
          ring
        exact Or.inr (by omega)

/-! ## Runs -/

/-- The cache for a size. -/
def cacheOf (size : Nat) : Nat := (getorder size).getD 0 - MIN_SIZE_ORDER

/-- The bytes that an object of a size takes. -/
def roomOf (size : Nat) : Nat := (slab_cache (cacheOf size)).objsize

theorem getorder_spec {size : Nat} (h : size ≤ 131072) :
    getorder size = some (cacheOf size + MIN_SIZE_ORDER) ∧ cacheOf size < SLAB_CACHE_NUM ∧
      size ≤ roomOf size := by
  unfold roomOf cacheOf
  cases ho : getorder size with
  | none =>
    have hlast := List.find?_eq_none.1 ho MAX_SIZE_ORDER (by decide)
    exact absurd (decide_eq_true h) hlast
  | some order =>
    have hmem := List.mem_range'_1.1 (List.mem_of_find?_eq_some ho)
    have hfound := List.find?_some ho
    have hle := of_decide_eq_true hfound
    rw [Nat.one_shiftLeft] at hle
    rw [Option.getD_some]
    have hc : order - MIN_SIZE_ORDER < SLAB_CACHE_NUM := by
      unfold SLAB_CACHE_NUM MAX_SIZE_ORDER MIN_SIZE_ORDER at *
      omega
    have hok := cacheOk hc
    refine ⟨by rw [Nat.sub_add_cancel hmem.1], hc, ?_⟩
    rw [hok.objsize, hok.shift, Nat.sub_add_cancel hmem.1]
    exact hle

/-- The caches of the live objects. -/
def ownOf (live : Nat → Option Nat) : Nat → Option Nat := fun x => (live x).map cacheOf

theorem ownOf_update (live : Nat → Option Nat) (x : Nat) (o : Option Nat) :
    ownOf (update live x o) = update (ownOf live) x (o.map cacheOf) := by
  funext y
  unfold ownOf
  by_cases hy : y = x
  · rw [hy, update_self, update_self]
  · rw [update_of_ne hy, update_of_ne hy]

theorem kmalloc_spec {live : Nat → Option Nat} (h : SlabOk A s (ownOf live) ∅) (ht : Tidy s ∅)
    {size : Nat} (hsize : 1 ≤ size ∧ size ≤ 131072) :
    (∃ s', kmalloc A s size = some (none, s') ∧ SlabOk A s' (ownOf live) ∅ ∧ Tidy s' ∅) ∨
    ∃ x s', kmalloc A s size = some (some x, s') ∧ live x = none ∧
      SlabOk A s' (ownOf (update live x (some size))) ∅ ∧ Tidy s' ∅ := by
  obtain ⟨ho, hc, -⟩ := getorder_spec hsize.2
  have hrun : kmalloc A s size = kmem_cache_alloc A ROUNDS s (cacheOf size) := by
    unfold kmalloc
    have hmax : ¬ MAX_SIZE_ORDER < cacheOf size + MIN_SIZE_ORDER := by
      unfold SLAB_CACHE_NUM MAX_SIZE_ORDER MIN_SIZE_ORDER at *
      omega
    rw [if_neg (by omega), ho]
    dsimp only
    rw [if_neg hmax, Nat.add_sub_cancel]
  rw [hrun]
  rcases kmem_cache_alloc_spec hc h ht with hnone | ⟨x, s', he, hx, hok, ht'⟩
  · exact Or.inl hnone
  · refine Or.inr ⟨x, s', he, Option.map_eq_none_iff.1 hx, ?_, ht'⟩
    rw [ownOf_update]
    exact hok

theorem kfree_spec {live : Nat → Option Nat} (h : SlabOk A s (ownOf live) ∅) (ht : Tidy s ∅)
    (hlive : ∀ x size, live x = some size → size ≤ 131072) {x : Nat} (hx : live x ≠ none) :
    ∃ s', kfree A s x = some s' ∧ SlabOk A s' (ownOf (update live x none)) ∅ ∧ Tidy s' ∅ ∧
      Shrinks s s' := by
  obtain ⟨size, hsize⟩ := Option.ne_none_iff_exists'.1 hx
  have hown : ownOf live x = some (cacheOf size) := by
    unfold ownOf
    rw [hsize, Option.map_some]
  obtain ⟨-, hc, -⟩ := getorder_spec (hlive x size hsize)
  obtain ⟨a, i, hl, hi, -, he⟩ := (h.obj _ x).2 (Or.inl hown)
  obtain ⟨p, hp, hr⟩ := (h.slab hl).kva2page hi
  rw [← he] at hp
  have hrun : kfree A s x = kmem_cache_free A ROUNDS s (cacheOf size) x := by
    unfold kfree
    rw [hp]
    dsimp only
    rw [(h.slab hl).page p hr]
  rw [hrun, ownOf_update]
  exact kmem_cache_free_spec hc h ht hown

theorem boot_ok (slab : Nat → Slab) (page : Nat → PageLink) :
    SlabOk A (Slabs.boot slab page) (ownOf fun _ => none) ∅ ∧ Tidy (Slabs.boot slab page) ∅ := by
  have hnot : ∀ c a, ¬ (Slabs.boot slab page).Listed c a := by
    rintro c a (hl | hl)
    · exact List.not_mem_nil hl
    · exact List.not_mem_nil hl
  refine ⟨⟨⟨fun _ => List.nodup_nil, fun _ => List.nodup_nil, fun hl => absurd hl List.not_mem_nil⟩,
    fun hl => absurd hl (hnot _ _), ?_, fun _ => rfl, ?_, fun hp => hp.elim⟩, ?_⟩
  · intro c x
    constructor
    · rintro ⟨a, i, hl, -⟩
      exact absurd hl (hnot c a)
    · rintro (ho | ⟨d, hl, -⟩)
      · cases ho
      · exact absurd hl (hnot d x)
  · intro p
    constructor
    · intro hp
      cases hp
    · rintro (hp | ⟨c, a, hl, -⟩)
      · exact hp.elim
      · exact absurd hl (hnot c a)
  · intro c a _
    exact ⟨fun hl => absurd hl List.not_mem_nil, fun hl => absurd hl List.not_mem_nil,
      fun hl => absurd hl (hnot c a)⟩

/-- What holds after any calls. -/
structure RunOk (A : PageAllocator) (s : Slabs) (live : Nat → Option Nat) : Prop where
  ok : SlabOk A s (ownOf live) ∅
  tidy : Tidy s ∅
  sizes : ∀ x size, live x = some size → size ≤ 131072

theorem reachable_ok {slab : Nat → Slab} {page : Nat → PageLink} {live : Nat → Option Nat}
    (hr : Reachable A slab page s live) : RunOk A s live := by
  induction hr with
  | boot =>
    obtain ⟨hok, ht⟩ := boot_ok (A := A) slab page
    exact ⟨hok, ht, fun x size hx => by cases hx⟩
  | @kmalloc s live size objp s' _ hsize h ih =>
    rcases kmalloc_spec ih.ok ih.tidy hsize with ⟨s1, he, -⟩ | ⟨x, s1, he, -, hok, ht⟩
    · rw [he] at h
      cases h
    · rw [he] at h
      obtain ⟨hx, rfl⟩ := Prod.mk.inj (Option.some_inj.1 h)
      obtain rfl := Option.some_inj.1 hx
      refine ⟨hok, ht, ?_⟩
      intro y m hy
      by_cases hyx : y = x
      · rw [hyx, update_self] at hy
        obtain rfl := Option.some_inj.1 hy
        exact hsize.2
      · rw [update_of_ne hyx] at hy
        exact ih.sizes y m hy
  | kmalloc_none _ hsize h ih =>
    rcases kmalloc_spec ih.ok ih.tidy hsize with ⟨s1, he, hok, ht⟩ | ⟨x, s1, he, -⟩
    · rw [he] at h
      obtain ⟨-, rfl⟩ := Prod.mk.inj (Option.some_inj.1 h)
      exact ⟨hok, ht, ih.sizes⟩
    · rw [he] at h
      cases h
  | @kfree s live objp s' _ hlive h ih =>
    obtain ⟨s1, he, hok, ht, -⟩ := kfree_spec ih.ok ih.tidy ih.sizes hlive
    rw [he] at h
    obtain rfl := Option.some_inj.1 h
    refine ⟨hok, ht, ?_⟩
    intro y m hy
    by_cases hyx : y = objp
    · rw [hyx, update_self] at hy
      cases hy
    · rw [update_of_ne hyx] at hy
      exact ih.sizes y m hy

/-- Each live object is in a slab of its cache and has room for its size. No two share a byte,
and none shares a byte with the descriptor of a slab and its array. -/
structure LiveOk (s : Slabs) (live : Nat → Option Nat) : Prop where
  inside : ∀ {x m}, live x = some m → m ≤ roomOf m ∧
    ∃ a i, s.Listed (cacheOf m) a ∧ i < (slab_cache (cacheOf m)).num ∧
      x = s.objAt (cacheOf m) a i ∧ page2kva (s.base a) ≤ x ∧
      x + roomOf m ≤ page2kva (s.base a + 2 ^ (slab_cache (cacheOf m)).page_order)
  apart : ∀ {x m y n}, live x = some m → live y = some n → x ≠ y →
    x + roomOf m ≤ y ∨ y + roomOf n ≤ x
  descriptors : ∀ {x m c a}, live x = some m → s.Listed c a →
    x + roomOf m ≤ a ∨ a + slab_mgmt_size (slab_cache c).num ≤ x

/-- Each slab is on one list of one cache, the full one just when it is full. Its chain lists
the indices that are neither live nor a descriptor, and the pages that are taken are those of the
slabs, which all have an object. -/
structure SlabsTold (s : Slabs) (live : Nat → Option Nat) : Prop where
  once : ∀ c, (s.full c).Nodup ∧ (s.notfull c).Nodup
  cache : ∀ {c d a}, s.Listed c a → s.Listed d a → c = d
  full : ∀ {c a}, s.Listed c a → (a ∈ s.full c ↔ (s.slab a).inuse = (slab_cache c).num)
  notfull : ∀ {c a}, s.Listed c a → (a ∈ s.notfull c ↔ (s.slab a).inuse ≠ (slab_cache c).num)
  linked : ∀ {c a}, s.Listed c a →
    Chain BUFCTL_END (s.slab a).bufctl (s.slab a).free (s.chain c a) ∧ (s.chain c a).Nodup ∧
      (s.chain c a).length = (slab_cache c).num - (s.slab a).inuse
  unallocated : ∀ {c a i}, s.Listed c a → (i ∈ s.chain c a ↔
    i < (slab_cache c).num ∧ live (s.objAt c a i) = none ∧ ¬ s.Descriptor c (s.objAt c a i))
  taken : ∀ p, s.taken p = true ↔ ∃ c a, s.Listed c a ∧ s.InRun c a p
  inuse : ∀ {c a}, s.Listed c a → 0 < (s.slab a).inuse

theorem RunOk.liveOk {live : Nat → Option Nat} (h : RunOk A s live) : LiveOk s live := by
  have hown : ∀ {x m}, live x = some m → ownOf live x = some (cacheOf m) := by
    intro x m hx
    unfold ownOf
    rw [hx, Option.map_some]
  refine ⟨?_, ?_, ?_⟩
  · intro x m hx
    obtain ⟨a, i, hl, hi, -, rfl⟩ := (h.ok.obj _ x).2 (Or.inl (hown hx))
    obtain ⟨h1, h2⟩ := (h.ok.slab hl).objAt_range hi
    exact ⟨(getorder_spec (h.sizes _ m hx)).2.2, a, i, hl, hi, rfl, by omega, h2⟩
  · intro x m y n hx hy hne
    obtain ⟨a, i, hl, hi, -, rfl⟩ := (h.ok.obj _ x).2 (Or.inl (hown hx))
    obtain ⟨b, j, hb, hj, -, rfl⟩ := (h.ok.obj _ y).2 (Or.inl (hown hy))
    exact h.ok.objs_apart hl hb hi hj hne
  · intro x m c a hx hl
    exact h.ok.mgmt_apart (hown hx) hl

theorem RunOk.slabsTold {live : Nat → Option Nat} (h : RunOk A s live) : SlabsTold s live := by
  have hplace : ∀ {c a}, s.Listed c a →
      (a ∈ s.full c ↔ (s.slab a).inuse = (slab_cache c).num) ∧
      (a ∈ s.notfull c ↔ (s.slab a).inuse ≠ (slab_cache c).num) := by
    intro c a hl
    obtain ⟨h1, h2, -⟩ := h.tidy c a (Set.notMem_empty a)
    rcases hl with hl | hl
    · exact ⟨⟨h1, fun _ => hl⟩, fun hn => absurd hn (h.ok.lists.apart hl), fun hne => absurd (h1 hl) hne⟩
    · have hlt := h2 hl
      exact ⟨⟨h1, fun he => by omega⟩, fun _ => by omega, fun _ => hl⟩
  refine ⟨fun c => ⟨h.ok.lists.full c, h.ok.lists.notfull c⟩, h.ok.cache_unique,
    fun hl => (hplace hl).1, fun hl => (hplace hl).2, ?_, ?_, ?_, ?_⟩
  · intro c a hl
    have hchain := (h.ok.slab hl).chain
    have hcount := hchain.count
    exact ⟨hchain.linked, hchain.nodup, by omega⟩
  · intro c a i hl
    have hchain := (h.ok.slab hl).chain
    constructor
    · intro hi
      have hno : ∀ d, ¬ s.Obj d (s.objAt c a i) := by
        rintro d ⟨b, j, hb, hj, hn, he⟩
        obtain ⟨rfl, rfl, rfl⟩ := h.ok.obj_unique hl hb (hchain.bound i hi) hj he
        exact hn hi
      refine ⟨hchain.bound i hi, ?_, fun hd => hno c ((h.ok.obj c _).2 (Or.inr hd))⟩
      cases hx : live (s.objAt c a i) with
      | none => rfl
      | some m =>
        refine absurd ((h.ok.obj (cacheOf m) _).2 (Or.inl ?_)) (hno _)
        unfold ownOf
        rw [hx, Option.map_some]
    · rintro ⟨hi, hx, hd⟩
      by_contra hn
      rcases (h.ok.obj c _).1 ⟨a, i, hl, hi, hn, rfl⟩ with ho | ho
      · unfold ownOf at ho
        rw [hx] at ho
        cases ho
      · exact hd ho
  · intro p
    rw [h.ok.taken]
    simp
  · intro c a hl
    exact (h.tidy c a (Set.notMem_empty a)).2.2 hl

/-- After any calls, with any page allocator: what `LiveOk` and `SlabsTold` say. A `kmalloc`
gives none or an object that was not live, and no call panics. A `kfree` gives back the pages of a
slab, and the object that held its descriptor, just when the counter of the slab falls to 0. -/
theorem slabs_ok (A : PageAllocator) (slab : Nat → Slab) (page : Nat → PageLink) (s : Slabs)
    (live : Nat → Option Nat) (hr : Reachable A slab page s live) :
    LiveOk s live ∧ SlabsTold s live ∧
    (∀ size, 1 ≤ size → size ≤ 131072 →
      ∃ o s', kmalloc A s size = some (o, s') ∧ ∀ x, o = some x → live x = none) ∧
    ∀ x, live x ≠ none → ∃ s', kfree A s x = some s' ∧
      ∀ c a, s.Listed c a →
        ((s'.slab a).inuse = 0 ↔ ¬ s'.Listed c a) ∧
        ((s'.slab a).inuse = 0 ↔ ∀ p, s.InRun c a p → s'.taken p = false) ∧
        ((slab_cache c).off_slab = true →
          s.Obj (slab_cache c).slab_cachep a ∧
          ((s'.slab a).inuse = 0 ↔ ¬ s'.Obj (slab_cache c).slab_cachep a)) := by
  have h := reachable_ok hr
  refine ⟨h.liveOk, h.slabsTold, ?_, ?_⟩
  · intro size h1 h2
    rcases kmalloc_spec h.ok h.tidy ⟨h1, h2⟩ with ⟨s', he, -⟩ | ⟨x, s', he, hx, -⟩
    · refine ⟨none, s', he, ?_⟩
      intro x ho
      cases ho
    · refine ⟨some x, s', he, ?_⟩
      intro y ho
      obtain rfl := Option.some_inj.1 ho
      exact hx
  · intro x hx
    obtain ⟨s', he, hok, ht, hsh⟩ := kfree_spec h.ok h.tidy h.sizes hx
    refine ⟨s', he, ?_⟩
    intro c a hl
    have hzero : (s'.slab a).inuse = 0 ↔ ¬ s'.Listed c a := by
      constructor
      · intro hz hl'
        have := (ht c a (Set.notMem_empty a)).2.2 hl'
        omega
      · exact hsh.gone hl
    have hrun : ∀ b, s'.base b = s.base b := by
      intro b
      unfold Slabs.base
      rw [hsh.s_mem, hsh.offset]
    refine ⟨hzero, ?_, ?_⟩
    · rw [hzero]
      constructor
      · intro hn p hp
        rw [← Bool.not_eq_true, hok.taken]
        rintro (hf | ⟨d, b, hb, hq⟩)
        · exact hf.elim
        · unfold Slabs.InRun at hq
          rw [hrun] at hq
          obtain ⟨rfl, rfl⟩ := h.ok.run_unique hl (hsh.listed hb) hp hq
          exact hn hb
      · intro hfree hl'
        have htaken : s'.taken (s.base a) = true := by
          rw [hok.taken, ← hrun]
          exact Or.inr ⟨c, a, hl', SlabAt.base_inRun c a⟩
        rw [hfree _ (SlabAt.base_inRun c a)] at htaken
        cases htaken
    · intro hoff
      have hdesc : s.Descriptor (slab_cache c).slab_cachep a := ⟨c, hl, hoff, rfl⟩
      refine ⟨(h.ok.obj _ a).2 (Or.inr hdesc), ?_⟩
      rw [hzero, hok.obj]
      constructor
      · rintro hn (ho | ⟨d, hd, -⟩)
        · rw [ownOf_update] at ho
          by_cases hax : a = x
          · rw [hax, update_self] at ho
            cases ho
          · rw [update_of_ne hax, h.ok.excl hdesc] at ho
            cases ho
        · obtain rfl := h.ok.cache_unique (hsh.listed hd) hl
          exact hn hd
      · intro hn hl'
        exact hn (Or.inr ⟨c, hl', hoff, rfl⟩)

/-- A page allocator with 64 pages, which gives the lowest run. -/
def lowestRun : PageAllocator where
  npage := 64
  pick taken _ n :=
    (List.range 64).find? fun page => decide (page + n ≤ 64 ∧ ∀ i < n, taken (page + i) = false)
  pick_free {taken tick n page} h := by
    have hfound := List.find?_some h
    obtain ⟨hin, hfree⟩ := of_decide_eq_true hfound
    refine ⟨hin, ?_⟩
    intro p h1 h2
    have hp := hfree (p - page) (by omega)
    rwa [Nat.add_sub_cancel' h1] at hp

def emptySlab : Slab := ⟨0, 0, 0, 0, fun _ => 0⟩

/-- An object whose slab keeps its descriptor in another one, and its release. -/
theorem slabs_ok_offSlab : ∃ s live,
    Reachable lowestRun (fun _ => emptySlab) (fun _ => ⟨false, 0, 0⟩) s live ∧
    live 0x80000000 = some 600 ∧ LiveOk s live ∧ kfree lowestRun s 0x80000000 ≠ none := by
  have hboot : Reachable lowestRun (fun _ => emptySlab) (fun _ => ⟨false, 0, 0⟩) _ _ :=
    Reachable.boot
  obtain ⟨-, -, hmalloc, -⟩ := slabs_ok _ _ _ _ _ hboot
  obtain ⟨o, s, he, -⟩ := hmalloc 600 (by decide) (by decide)
  have hx : (kmalloc lowestRun (Slabs.boot (fun _ => emptySlab) fun _ => ⟨false, 0, 0⟩) 600).map
      Prod.fst = some (some 0x80000000) := by
    decide +kernel
  rw [he, Option.map_some] at hx
  obtain rfl : o = some 0x80000000 := Option.some_inj.1 hx
  have hone := hboot.kmalloc ⟨by decide, by decide⟩ he
  have hlive : update (fun _ => none) 0x80000000 (some 600) 0x80000000 = some 600 :=
    update_self _ _ _
  obtain ⟨hok, -, -, hfree⟩ := slabs_ok _ _ _ _ _ hone
  obtain ⟨s', hs', -⟩ := hfree 0x80000000 (by rw [hlive]; exact Option.some_ne_none 600)
  refine ⟨s, _, hone, hlive, hok, ?_⟩
  rw [hs']
  exact Option.some_ne_none s'


end nehcpu.kernel.kmem
