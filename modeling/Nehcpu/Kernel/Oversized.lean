-- Requests of any size: up to the largest block `kmalloc` and `alloc_pages` give a block or `NULL`,
-- and with `NULL` nothing has changed. Above it they panic.
import Nehcpu.Kernel.BuddyOk
import Nehcpu.Kernel.SlabOk

/-! ## Pages -/

namespace nehcpu.kernel.buddy

/-- A call gives pages that were free, or none and then the allocator is as it was. -/
def SoftAlloc (base n : Nat) (b : Buddy) (live : Set Nat) (k : Nat) : Prop :=
  ∃ r b', buddy_alloc_pages b k = some (r, b') ∧ (r = none → b' = b) ∧
    ∀ page, r = some page → pageRun page k ⊆ pageRun base n ∧ Disjoint (pageRun page k) live ∧
      Disjoint (pageRun page k) b'.freePages

theorem getorder_above {k : Nat} (h : 1024 < k) : getorder k = none := by
  unfold getorder
  rw [List.find?_eq_none]
  intro order ho hle
  have hmax : order ≤ 10 := Nat.le_of_lt_succ (List.mem_range.1 ho)
  have hpow : 2 ^ order ≤ 2 ^ 10 := Nat.pow_le_pow_right (by decide) hmax
  have hk := of_decide_eq_true hle
  rw [Nat.one_shiftLeft] at hk
  omega

theorem softAlloc_iff {base n : Nat} {b : Buddy} {live : Set Nat} (h : BuddyOk base n b live)
    {k : Nat} (hk : 0 < k) : SoftAlloc base n b live k ↔ k ≤ 1024 := by
  constructor
  · rintro ⟨r, b', he, -⟩
    by_contra hgt
    unfold buddy_alloc_pages at he
    rw [if_neg (by omega), getorder_above (by omega)] at he
    cases he
  · intro hle
    rcases buddy_alloc_pages_spec h ⟨hk, hle⟩ with he | ⟨page, b', he, h1, h2, hfresh, hok⟩
    · exact ⟨none, b, he, fun _ => rfl, nofun⟩
    · refine ⟨some page, b', he, nofun, ?_⟩
      intro page' hp
      obtain rfl := Option.some_inj.1 hp
      refine ⟨?_, ?_, ?_⟩
      · rintro p ⟨hlo, hhi⟩
        exact ⟨by omega, by omega⟩
      · rw [Set.disjoint_left]
        exact hfresh
      · rw [Set.disjoint_left]
        intro p hp hfree
        exact ((hok.mem_freePages p).1 hfree).2 (Or.inr hp)

end nehcpu.kernel.buddy

/-! ## Objects -/

namespace nehcpu.kernel.kmem

open Function

variable {A : PageAllocator} {s s' : Slabs} {live : Nat → Option Nat}

/-- A call gives an object with room for the size, apart from all others, or none, and then only
the clock has gone on. -/
def SoftKmalloc (A : PageAllocator) (s : Slabs) (live : Nat → Option Nat) (size : Nat) : Prop :=
  ∃ o s', kmalloc A s size = some (o, s') ∧ (o = none → s' = { s with tick := s'.tick }) ∧
    ∀ x, o = some x → live x = none ∧ LiveOk s' (update live x (some size))

theorem alloc_pages_none {n : Nat} (h : alloc_pages A s n = (none, s')) :
    s' = { s with tick := s'.tick } := by
  unfold alloc_pages at h
  split at h
  · obtain ⟨-, rfl⟩ := Prod.mk.inj h
    rfl
  · cases (Prod.mk.inj h).1

/-- The pages of a slab that gets no descriptor go back. -/
theorem free_alloc_pages {n page t : Nat} (h : alloc_pages A s n = (some page, s')) :
    free_pages { s' with tick := t } page n = { s with tick := t } := by
  unfold alloc_pages at h
  split at h
  · cases (Prod.mk.inj h).1
  · next page' hpick =>
    obtain ⟨hp, rfl⟩ := Prod.mk.inj h
    obtain rfl := Option.some_inj.1 hp
    have htaken : ∀ p, (!decide (page' ≤ p ∧ p < page' + n) &&
        (decide (page' ≤ p ∧ p < page' + n) || s.taken p)) = s.taken p := by
      intro p
      by_cases hp : page' ≤ p ∧ p < page' + n
      · have hfree := (A.pick_free hpick).2 p hp.1 hp.2
        simp [hp, hfree]
      · simp [hp]
    unfold free_pages
    simp only [htaken]

/-- A cache that does not grow changes nothing: the descriptor is asked for after the pages, and
they go back without it. -/
theorem kmem_cache_grow_none {alloc : Slabs → Nat → Option (Option Nat × Slabs)} {c : Nat}
    (halloc : ∀ {s s' d}, alloc s d = some (none, s') → s' = { s with tick := s'.tick })
    (h : kmem_cache_grow A alloc s c = some (false, s')) : s' = { s with tick := s'.tick } := by
  unfold kmem_cache_grow at h
  rcases hp : alloc_pages A s (1 <<< (slab_cache c).page_order) with ⟨_ | page, s1⟩
  · simp only [hp] at h
    obtain ⟨-, rfl⟩ := Prod.mk.inj (Option.some_inj.1 h)
    exact alloc_pages_none hp
  · simp only [hp] at h
    rcases hm : kmem_cache_slabmgmt A alloc s1 c page with _ | ⟨_ | slabp, s2⟩
    · simp only [hm] at h
      cases h
    · simp only [hm] at h
      obtain ⟨-, rfl⟩ := Prod.mk.inj (Option.some_inj.1 h)
      have hs2 : s2 = { s1 with tick := s2.tick } := by
        unfold kmem_cache_slabmgmt at hm
        split at hm
        · split at hm
          · split at hm
            · cases (Prod.mk.inj (Option.some_inj.1 hm)).1
            · exact halloc hm
          · cases (Prod.mk.inj (Option.some_inj.1 hm)).1
        · cases hm
      rw [hs2, free_alloc_pages hp]
    · simp only [hm] at h
      cases (Prod.mk.inj (Option.some_inj.1 h)).1

theorem kmem_cache_grow_notfull {alloc : Slabs → Nat → Option (Option Nat × Slabs)} {c : Nat}
    (h : kmem_cache_grow A alloc s c = some (true, s')) : s'.notfull c ≠ [] := by
  unfold kmem_cache_grow at h
  rcases hp : alloc_pages A s (1 <<< (slab_cache c).page_order) with ⟨_ | page, s1⟩
  · simp only [hp] at h
    cases (Prod.mk.inj (Option.some_inj.1 h)).1
  · simp only [hp] at h
    rcases hm : kmem_cache_slabmgmt A alloc s1 c page with _ | ⟨_ | slabp, s2⟩
    · simp only [hm] at h
      cases h
    · simp only [hm] at h
      cases (Prod.mk.inj (Option.some_inj.1 h)).1
    · simp only [hm] at h
      obtain ⟨-, rfl⟩ := Prod.mk.inj (Option.some_inj.1 h)
      unfold addNotfull
      simp only [update_self]
      exact List.cons_ne_nil _ _

/-- A slab that is not full gives an object. -/
theorem kmem_cache_alloc_notfull {rounds c : Nat} (hl : s.notfull c ≠ []) :
    kmem_cache_alloc A rounds s c ≠ some (none, s') := by
  intro h
  cases rounds with
  | zero => cases h
  | succ rounds =>
    obtain ⟨a, l, hal⟩ := List.exists_cons_of_ne_nil hl
    rw [kmem_cache_alloc] at h
    simp only [hal] at h
    cases (Prod.mk.inj (Option.some_inj.1 h)).1

theorem kmem_cache_alloc_none (rounds : Nat) : ∀ {s s' : Slabs} {c : Nat},
    kmem_cache_alloc A rounds s c = some (none, s') → s' = { s with tick := s'.tick } := by
  induction rounds with
  | zero =>
    intro s s' c h
    cases h
  | succ rounds ih =>
    intro s s' c h
    rw [kmem_cache_alloc] at h
    split at h
    · cases (Prod.mk.inj (Option.some_inj.1 h)).1
    · split at h
      · cases h
      · next s1 hg =>
        obtain ⟨-, rfl⟩ := Prod.mk.inj (Option.some_inj.1 h)
        exact kmem_cache_grow_none ih hg
      · next s1 hg => exact absurd h (kmem_cache_alloc_notfull (kmem_cache_grow_notfull hg))

theorem getorder_above {size : Nat} (h : 131072 < size) : getorder size = none := by
  unfold getorder
  rw [List.find?_eq_none]
  intro order ho hle
  have hmax : order ≤ 17 := Nat.le_of_lt_succ (List.mem_range'_1.1 ho).2
  have hpow : 2 ^ order ≤ 2 ^ 17 := Nat.pow_le_pow_right (by decide) hmax
  have hk := of_decide_eq_true hle
  rw [Nat.one_shiftLeft] at hk
  omega

theorem softKmalloc_iff (h : RunOk A s live) {size : Nat} (hsize : 0 < size) :
    SoftKmalloc A s live size ↔ size ≤ 131072 := by
  constructor
  · rintro ⟨o, s', he, -⟩
    by_contra hgt
    unfold kmalloc at he
    rw [if_neg (by omega), getorder_above (by omega)] at he
    cases he
  · intro hle
    rcases kmalloc_spec h.ok h.tidy ⟨hsize, hle⟩ with ⟨s', he, -⟩ | ⟨x, s', he, hx, hok, ht⟩
    · refine ⟨none, s', he, fun _ => ?_, nofun⟩
      unfold kmalloc at he
      obtain ⟨ho, hc, -⟩ := getorder_spec hle
      have hmax : ¬ MAX_SIZE_ORDER < cacheOf size + MIN_SIZE_ORDER := by
        unfold SLAB_CACHE_NUM MAX_SIZE_ORDER MIN_SIZE_ORDER at *
        omega
      rw [if_neg (by omega), ho] at he
      simp only [if_neg hmax] at he
      exact kmem_cache_alloc_none _ he
    · refine ⟨some x, s', he, nofun, ?_⟩
      intro y hy
      obtain rfl := Option.some_inj.1 hy
      have hrun : RunOk A s' (update live x (some size)) := by
        refine ⟨hok, ht, ?_⟩
        intro z m hz
        rw [update_apply] at hz
        split at hz
        · obtain rfl := Option.some_inj.1 hz
          exact hle
        · exact h.sizes z m hz
      exact ⟨hx, hrun.liveOk⟩

/-- What a slab asks the page allocator for. -/
theorem page_order_le : ∀ c < SLAB_CACHE_NUM,
    0 < 1 <<< (slab_cache c).page_order ∧ 1 <<< (slab_cache c).page_order ≤ 1024 := by
  decide +kernel

/-- After any calls: a `kmalloc` is soft up to the size of the largest cache, an `alloc_pages` up
to the largest block, and what a cache asks for is never above that. -/
theorem requests_soft {slab : Nat → Slab} {page : Nat → PageLink} {npage base n : Nat}
    {memory : Nat → buddy.Page} {b : buddy.Buddy} {pages : Set Nat}
    (hr : Reachable A slab page s live) (hin : base + n ≤ npage)
    (hb : buddy.Reachable npage memory base n b pages) :
    (∀ size, 0 < size → (SoftKmalloc A s live size ↔ size ≤ 131072)) ∧
    (∀ k, 0 < k → (buddy.SoftAlloc base n b pages k ↔ k ≤ 1024)) ∧
    ∀ c < SLAB_CACHE_NUM, buddy.SoftAlloc base n b pages (1 <<< (slab_cache c).page_order) := by
  have hslabs := reachable_ok hr
  have hpages := buddy.reachable_ok hin hb
  refine ⟨fun size hsize => softKmalloc_iff hslabs hsize,
    fun k hk => buddy.softAlloc_iff hpages hk, ?_⟩
  intro c hc
  obtain ⟨hpos, hle⟩ := page_order_le c hc
  exact (buddy.softAlloc_iff hpages hpos).2 hle

theorem requests_soft_start : ∃ b, buddy.Reachable 40 (fun _ => buddy.anyPage) 5 22 b ∅ ∧
    SoftKmalloc lowestRun (Slabs.boot (fun _ => emptySlab) fun _ => ⟨false, 0, 0⟩)
      (fun _ => none) 131072 ∧ ¬ buddy.SoftAlloc 5 22 b ∅ 1025 := by
  have hsome : (buddy.buddy_init_memmap (buddy.page_init 40 fun _ => buddy.anyPage) 5 22).isSome =
      true := by
    decide +kernel
  obtain ⟨b, hinit⟩ := Option.isSome_iff_exists.1 hsome
  have hb := buddy.Reachable.init hinit
  obtain ⟨hkmalloc, halloc, -⟩ := requests_soft (Reachable.boot (A := lowestRun)) (by decide) hb
  exact ⟨b, hb, (hkmalloc 131072 (by decide)).2 (by decide),
    fun h => absurd ((halloc 1025 (by decide)).1 h) (by decide)⟩

/-- One byte more than the largest cache has. -/
theorem not_soft : ¬ ∀ (A : PageAllocator) (slab : Nat → Slab) (page : Nat → PageLink) (s : Slabs)
    (live : Nat → Option Nat) (size : Nat), Reachable A slab page s live → 0 < size →
      SoftKmalloc A s live size := by
  intro h
  have hboot : Reachable lowestRun (fun _ => emptySlab) (fun _ => ⟨false, 0, 0⟩) _ _ :=
    Reachable.boot
  have hsoft := h _ _ _ _ _ 131073 hboot (by decide)
  exact absurd ((softKmalloc_iff (reachable_ok hboot) (by decide)).1 hsoft) (by decide)

end nehcpu.kernel.kmem
