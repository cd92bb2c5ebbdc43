-- What the buddy allocator keeps over any calls: the free blocks and the live pages share out
-- the zone, and no two buddies are free at once.
import Mathlib.Data.List.Nodup
import Mathlib.Data.Set.Lattice
import Mathlib.Order.CompletePartialOrder
import Nehcpu.Lib.Dyadic
import Nehcpu.Kernel.Buddy

namespace nehcpu.kernel.buddy

open Function nehcpu.dyadic

/-- The free blocks, by their index in the zone at `base`. -/
def Buddy.freeBlock (b : Buddy) (base order idx : Nat) : Prop := base + idx ∈ b.free_list order

/-- The zone has `size` pages from `base`, and each of them is in a free block or live. -/
structure BuddyOk (base size : Nat) (b : Buddy) (live : Set Nat) : Prop where
  blocks : Blocks MAX_ORDER size (b.freeBlock base)
  above : ∀ {order page}, page ∈ b.free_list order → base ≤ page
  nodup : ∀ order, (b.free_list order).Nodup
  count : ∀ order, b.nr_free order = (b.free_list order).length
  head : ∀ {page}, base ≤ page → page < base + size →
    ((b.pages page).isProperty = true ↔ ∃ order, page ∈ b.free_list order)
  property : ∀ {order page}, page ∈ b.free_list order → (b.pages page).property = order
  zone : ∀ {page}, base ≤ page → page < base + size →
    (b.pages page).reserved = false ∧ (b.pages page).zone_num = 0
  outside : ∀ {page}, page < base ∨ base + size ≤ page → (b.pages page).reserved = true
  mem_base : b.mem_base 0 = base
  npage : base + size ≤ b.npage
  live : ∀ page, page ∈ live ↔
    base ≤ page ∧ page < base + size ∧ ¬ Covers (b.freeBlock base) (page - base)

theorem mem_pageRun {page base n : Nat} : page ∈ pageRun base n ↔ base ≤ page ∧ page < base + n :=
  Iff.rfl

variable {base size : Nat} {b : Buddy} {live : Set Nat}

/-! ## One block -/

/-- Live pages are in the zone and in no free block. -/
theorem BuddyOk.live_zone (h : BuddyOk base size b live) {page : Nat} (hp : page ∈ live) :
    base ≤ page ∧ page < base + size :=
  ⟨((h.live page).1 hp).1, ((h.live page).1 hp).2.1⟩

theorem BuddyOk.not_head (h : BuddyOk base size b live) {page : Nat} (hp : page ∈ live) (k : Nat) :
    page ∉ b.free_list k := by
  intro hk
  obtain ⟨h1, -, h3⟩ := (h.live page).1 hp
  apply h3
  refine ⟨k, page - base, ?_, Nat.le_refl _, Nat.lt_add_of_pos_right (Nat.two_pow_pos k)⟩
  rw [Buddy.freeBlock, Nat.add_sub_cancel' h1]
  exact hk

/-- The flags of a live page. -/
theorem BuddyOk.live_flags (h : BuddyOk base size b live) {page : Nat} (hp : page ∈ live) :
    (b.pages page).reserved = false ∧ (b.pages page).isProperty = false ∧
      (b.pages page).zone_num = 0 := by
  obtain ⟨h1, h2⟩ := h.live_zone hp
  refine ⟨(h.zone h1 h2).1, ?_, (h.zone h1 h2).2⟩
  rw [← Bool.not_eq_true, h.head h1 h2]
  rintro ⟨k, hk⟩
  exact h.not_head hp k hk

/-- A page of a list is only there. -/
theorem BuddyOk.order_eq (h : BuddyOk base size b live) {page k j : Nat}
    (hk : page ∈ b.free_list k) (hj : page ∈ b.free_list j) : k = j :=
  (h.property hk).symm.trans (h.property hj)

/-- A free block is in the zone, and none of its pages is live. -/
theorem BuddyOk.block (h : BuddyOk base size b live) {k idx : Nat}
    (hk : base + idx ∈ b.free_list k) :
    idx + 2 ^ k ≤ size ∧ ∀ page ∈ pageRun (base + idx) (2 ^ k), page ∉ live := by
  refine ⟨h.blocks.inside hk, ?_⟩
  rintro page ⟨h1, h2⟩ hl
  exact ((h.live page).1 hl).2.2 ⟨k, idx, hk, by omega, by omega⟩

/-- A block taken from its list, with its flag off: its pages are live. -/
theorem BuddyOk.take (h : BuddyOk base size b live) {k idx : Nat}
    (hk : base + idx ∈ b.free_list k) :
    BuddyOk base size (ClearPageProperty (delBlock b k (base + idx)) (base + idx))
      (live ∪ pageRun (base + idx) (2 ^ k)) := by
  have hpos := Nat.two_pow_pos k
  have hmem : ∀ j page, page ∈ (b.free_list j).erase (base + idx) ↔
      page ≠ base + idx ∧ page ∈ b.free_list j := by
    intro j page
    exact (h.nodup j).mem_erase_iff
  constructor
  · apply h.blocks.mono
    intro j y hy
    exact ((hmem j _).1 hy).2
  · intro j page hp
    exact h.above ((hmem j page).1 hp).2
  · intro j
    exact (h.nodup j).erase _
  · intro j
    change update b.nr_free k (b.nr_free k + -1) j = (((b.free_list j).erase (base + idx)).length : Int)
    by_cases hj : j = k
    · subst hj
      have hlen := List.length_pos_of_mem hk
      rw [update_self, List.length_erase_of_mem hk, h.count]
      omega
    · rw [update_of_ne hj, List.erase_of_not_mem, h.count]
      intro hm
      exact hj (h.order_eq hm hk)
  · intro page h1 h2
    change ((update b.pages (base + idx) _ page).isProperty = true ↔
      ∃ j, page ∈ (b.free_list j).erase (base + idx))
    simp only [hmem]
    by_cases hp : page = base + idx
    · simp [hp]
    · rw [update_of_ne hp, h.head h1 h2]
      simp [hp]
  · intro j page hp
    obtain ⟨hne, hp⟩ := (hmem j page).1 hp
    change (update b.pages (base + idx) _ page).property = j
    rw [update_of_ne hne, h.property hp]
  · intro page h1 h2
    change (update b.pages (base + idx) _ page).reserved = false ∧
      (update b.pages (base + idx) _ page).zone_num = 0
    by_cases hp : page = base + idx
    · subst hp
      rw [update_self]
      exact h.zone h1 h2
    · rw [update_of_ne hp]
      exact h.zone h1 h2
  · intro page hout
    have hin := h.blocks.inside hk
    change (update b.pages (base + idx) _ page).reserved = true
    rw [update_of_ne (by omega)]
    exact h.outside hout
  · exact h.mem_base
  · exact h.npage
  · intro page
    have hin := h.blocks.inside hk
    rw [Set.mem_union, h.live, mem_pageRun]
    constructor
    · rintro (⟨h1, h2, h3⟩ | ⟨h1, h2⟩)
      · refine ⟨h1, h2, ?_⟩
        rintro ⟨j, y, hy, h4, h5⟩
        exact h3 ⟨j, y, ((hmem j _).1 hy).2, h4, h5⟩
      · refine ⟨by omega, by omega, ?_⟩
        rintro ⟨j, y, hy, h4, h5⟩
        obtain ⟨hne, hy⟩ := (hmem j _).1 hy
        obtain ⟨-, rfl⟩ := h.blocks.apart hk hy (i := page - base) (by omega) (by omega) h4 h5
        exact hne rfl
    · rintro ⟨h1, h2, h3⟩
      by_cases hp : base + idx ≤ page ∧ page < base + idx + 2 ^ k
      · exact Or.inr hp
      · refine Or.inl ⟨h1, h2, ?_⟩
        rintro ⟨j, y, hy, h4, h5⟩
        apply h3
        refine ⟨j, y, (hmem j _).2 ⟨?_, hy⟩, h4, h5⟩
        intro he
        obtain rfl : y = idx := by omega
        obtain rfl := h.order_eq hy hk
        omega

/-- A block of live pages made free, when its buddy is not free. -/
theorem BuddyOk.give (h : BuddyOk base size b live) (k idx : Nat) (hk : k ≤ MAX_ORDER)
    (hidx : 2 ^ k ∣ idx) (hlive : pageRun (base + idx) (2 ^ k) ⊆ live)
    (hbuddy : k < MAX_ORDER → base + (idx ^^^ 2 ^ k) ∉ b.free_list k) :
    BuddyOk base size (addBlock b k (base + idx)) (live \ pageRun (base + idx) (2 ^ k)) := by
  have hpos := Nat.two_pow_pos k
  have hl0 : base + idx ∈ live := hlive ⟨by omega, by omega⟩
  have hin : idx + 2 ^ k ≤ size := by
    have h1 := (h.live_zone (hlive (a := base + idx + 2 ^ k - 1) ⟨by omega, by omega⟩)).2
    omega
  have hmem : ∀ j page, page ∈ (addBlock b k (base + idx)).free_list j ↔
      j = k ∧ page = base + idx ∨ page ∈ b.free_list j := by
    intro j page
    change page ∈ update b.free_list k ((base + idx) :: b.free_list k) j ↔ _
    by_cases hj : j = k
    · subst hj
      rw [update_self, List.mem_cons]
      simp
    · rw [update_of_ne hj]
      simp [hj]
  constructor
  · apply h.blocks.add hk hidx hin
    · intro i h1 h2 hc
      have hl := ((h.live (base + i)).1 (hlive ⟨by omega, by omega⟩)).2.2
      rw [Nat.add_sub_cancel_left] at hl
      exact hl hc
    · exact hbuddy
    · intro j y
      rw [Buddy.freeBlock, hmem, Nat.add_left_cancel_iff]
      rfl
  · intro j page hp
    rcases (hmem j page).1 hp with ⟨-, rfl⟩ | hp
    · omega
    · exact h.above hp
  · intro j
    change (update b.free_list k ((base + idx) :: b.free_list k) j).Nodup
    by_cases hj : j = k
    · subst hj
      rw [update_self]
      exact List.nodup_cons.2 ⟨h.not_head hl0 _, h.nodup _⟩
    · rw [update_of_ne hj]
      exact h.nodup j
  · intro j
    change update b.nr_free k (b.nr_free k + 1) j =
      ((update b.free_list k ((base + idx) :: b.free_list k) j).length : Int)
    by_cases hj : j = k
    · subst hj
      rw [update_self, update_self, List.length_cons, h.count]
      omega
    · rw [update_of_ne hj, update_of_ne hj, h.count]
  · intro page h1 h2
    simp only [hmem]
    change ((update b.pages (base + idx) _ page).isProperty = true ↔ _)
    by_cases hp : page = base + idx
    · simp [hp]
    · rw [update_of_ne hp, h.head h1 h2]
      simp [hp]
  · intro j page hp
    change (update b.pages (base + idx) _ page).property = j
    rcases (hmem j page).1 hp with ⟨rfl, rfl⟩ | hp
    · rw [update_self]
    · have hne : page ≠ base + idx := by
        rintro rfl
        exact h.not_head hl0 j hp
      rw [update_of_ne hne, h.property hp]
  · intro page h1 h2
    change (update b.pages (base + idx) _ page).reserved = false ∧
      (update b.pages (base + idx) _ page).zone_num = 0
    by_cases hp : page = base + idx
    · subst hp
      rw [update_self]
      exact h.zone h1 h2
    · rw [update_of_ne hp]
      exact h.zone h1 h2
  · intro page hout
    change (update b.pages (base + idx) _ page).reserved = true
    rw [update_of_ne (by omega)]
    exact h.outside hout
  · exact h.mem_base
  · exact h.npage
  · intro page
    rw [Set.mem_sdiff, h.live, mem_pageRun]
    constructor
    · rintro ⟨⟨h1, h2, h3⟩, h4⟩
      refine ⟨h1, h2, ?_⟩
      rintro ⟨j, y, hy, h5, h6⟩
      rcases (hmem j _).1 hy with ⟨rfl, he⟩ | hy
      · omega
      · exact h3 ⟨j, y, hy, h5, h6⟩
    · rintro ⟨h1, h2, h3⟩
      refine ⟨⟨h1, h2, ?_⟩, ?_⟩
      · rintro ⟨j, y, hy, h5, h6⟩
        exact h3 ⟨j, y, (hmem j _).2 (Or.inr hy), h5, h6⟩
      · rintro ⟨h4, h5⟩
        exact h3 ⟨k, idx, (hmem k _).2 (Or.inl ⟨rfl, rfl⟩), by omega, by omega⟩

/-! ## Release -/

theorem BuddyOk.page_is_buddy (h : BuddyOk base size b live) {k page : Nat} :
    page_is_buddy b page k 0 = true ↔ page ∈ b.free_list k := by
  unfold buddy.page_is_buddy
  constructor
  · intro ht
    split at ht
    · split at ht
      · simp only [Bool.and_eq_true, Bool.not_eq_true', beq_iff_eq] at ht
        obtain ⟨⟨hr, hp⟩, ho⟩ := ht
        have hz : base ≤ page ∧ page < base + size := by
          by_contra hz
          rw [h.outside (by omega)] at hr
          cases hr
        obtain ⟨j, hj⟩ := (h.head hz.1 hz.2).1 hp
        obtain rfl : j = k := (h.property hj).symm.trans ho
        exact hj
      · cases ht
    · cases ht
  · intro hk
    obtain ⟨idx, rfl⟩ := Nat.exists_eq_add_of_le (h.above hk)
    have hpos := Nat.two_pow_pos k
    have hin := (h.block hk).1
    have hnpage := h.npage
    have hlt : base + idx < base + size := by omega
    obtain ⟨hr, hz⟩ := h.zone (Nat.le_add_right base idx) hlt
    rw [if_pos (by omega), if_pos hz, hr, h.property hk, (h.head (by omega) (by omega)).2 ⟨k, hk⟩]
    simp

/-- The flags of a run of live pages are cleared, and their references. -/
theorem BuddyOk.reset (h : BuddyOk base size b live) {page n : Nat}
    (hlive : pageRun page n ⊆ live) :
    BuddyOk base size
      { b with
        pages := fun p =>
          if page ≤ p ∧ p < page + n then
            { b.pages p with reserved := false, isProperty := false, ref := 0 }
          else b.pages p }
      live := by
  have hflag : ∀ p, p ∈ pageRun page n → (b.pages p).reserved = false ∧
      (b.pages p).isProperty = false := by
    intro p hp
    obtain ⟨h1, h2, -⟩ := h.live_flags (hlive hp)
    exact ⟨h1, h2⟩
  refine ⟨h.blocks, h.above, h.nodup, h.count, ?_, ?_, ?_, ?_, h.mem_base, h.npage, h.live⟩
  · intro p h1 h2
    rw [← h.head h1 h2]
    dsimp only
    split
    · next hp => rw [(hflag p hp).2]
    · rfl
  · intro j p hp
    rw [← h.property hp]
    dsimp only
    split
    · rfl
    · rfl
  · intro p h1 h2
    dsimp only
    split
    · next hp => exact ⟨rfl, (h.zone h1 h2).2⟩
    · exact h.zone h1 h2
  · intro p hout
    rw [← h.outside hout]
    dsimp only
    rw [if_neg]
    intro hp
    have hz := h.live_zone (hlive hp)
    omega

/-- The loop takes free buddies and joins them to a live block, which grows. -/
theorem coalesce_spec (rounds : Nat) : ∀ {b : Buddy} {live : Set Nat} {k idx : Nat},
    BuddyOk base size b live → k ≤ MAX_ORDER → MAX_ORDER ≤ k + rounds → 2 ^ k ∣ idx →
    pageRun (base + idx) (2 ^ k) ⊆ live →
    ∃ b' k' idx' live', coalesce 0 rounds b k idx = (b', k', idx') ∧
      BuddyOk base size b' live' ∧ k' ≤ MAX_ORDER ∧ 2 ^ k' ∣ idx' ∧
      pageRun (base + idx') (2 ^ k') ⊆ live' ∧
      (k' < MAX_ORDER → base + (idx' ^^^ 2 ^ k') ∉ b'.free_list k') ∧
      live' \ pageRun (base + idx') (2 ^ k') = live \ pageRun (base + idx) (2 ^ k) := by
  induction rounds with
  | zero =>
    intro b live k idx h hk hr hidx hlive
    exact ⟨b, k, idx, live, rfl, h, hk, hidx, hlive, fun hlt => by omega, rfl⟩
  | succ rounds ih =>
    intro b live k idx h hk hr hidx hlive
    simp only [coalesce, idx2page, h.mem_base, Nat.one_shiftLeft]
    split
    · next hlt =>
      split
      · next hb =>
        rw [h.page_is_buddy] at hb
        have hdouble : 2 ^ (k + 1) = 2 ^ k + 2 ^ k := by rw [pow_succ]; ring
        have htake := h.take hb
        have hfree := (h.block hb).2
        obtain ⟨hparent, hhalf⟩ := halves hidx
        revert htake hfree hparent hhalf
        generalize idx &&& (idx ^^^ 2 ^ k) = parent
        generalize idx ^^^ 2 ^ k = buddy
        intro htake hfree hparent hhalf
        have hjoin : ∀ p, p ∈ pageRun (base + parent) (2 ^ (k + 1)) ↔
            p ∈ pageRun (base + idx) (2 ^ k) ∨ p ∈ pageRun (base + buddy) (2 ^ k) := by
          intro p
          simp only [mem_pageRun, hdouble]
          omega
        obtain ⟨b', k', idx', live', he, hok, hk', hidx', hlive', hn, hsame⟩ :=
          ih htake (by omega) (by omega) hparent (by
            intro p hp
            rcases (hjoin p).1 hp with h1 | h1
            · exact Or.inl (hlive h1)
            · exact Or.inr h1)
        refine ⟨b', k', idx', live', he, hok, hk', hidx', hlive', hn, ?_⟩
        rw [hsame]
        ext p
        simp only [Set.mem_sdiff, Set.mem_union, hjoin]
        constructor
        · rintro ⟨h1 | h1, h2⟩
          · exact ⟨h1, fun h3 => h2 (Or.inl h3)⟩
          · exact absurd (Or.inr h1) h2
        · rintro ⟨h1, h2⟩
          refine ⟨Or.inl h1, ?_⟩
          rintro (h3 | h3)
          · exact h2 h3
          · exact hfree p h3 h1
      · next hb =>
        rw [h.page_is_buddy] at hb
        exact ⟨b, k, idx, live, rfl, h, hk, hidx, hlive, fun _ => hb, rfl⟩
    · next hlt =>
      exact ⟨b, k, idx, live, rfl, h, hk, hidx, hlive, fun hlt' => absurd hlt' hlt, rfl⟩

theorem buddy_free_pages_sub_spec (h : BuddyOk base size b live) {k idx : Nat} (hk : k ≤ MAX_ORDER)
    (hidx : 2 ^ k ∣ idx) (hlive : pageRun (base + idx) (2 ^ k) ⊆ live) :
    ∃ b', buddy_free_pages_sub b (base + idx) k = some b' ∧
      BuddyOk base size b' (live \ pageRun (base + idx) (2 ^ k)) := by
  have hpos := Nat.two_pow_pos k
  obtain ⟨-, -, hz⟩ := h.live_flags (hlive (a := base + idx) ⟨by omega, by omega⟩)
  obtain ⟨b', k', idx', live', he, hok, hk', hidx', hlive', hn, hsame⟩ :=
    coalesce_spec MAX_ORDER (h.reset hlive) hk (by omega) hidx hlive
  refine ⟨addBlock b' k' (base + idx'), ?_, ?_⟩
  · unfold buddy_free_pages_sub
    simp only [page2idx, hz, h.mem_base, Nat.add_sub_cancel_left, Nat.one_shiftLeft]
    rw [if_pos]
    · have hsub : base ≤ base + idx ∧ base + idx < base + idx + 2 ^ k := ⟨by omega, by omega⟩
      simp only [Nat.le_refl, true_and, hsub.2, if_true, hz]
      rw [he]
      simp only [idx2page, hok.mem_base]
    · refine ⟨(and_mask_eq_zero k idx).2 hidx, ?_⟩
      intro i hi
      obtain ⟨h1, h2, -⟩ := h.live_flags (hlive (a := base + idx + i) ⟨by omega, by omega⟩)
      exact ⟨h1, h2⟩
  · rw [← hsame]
    exact hok.give k' idx' hk' hidx' hlive' hn

/-- A run goes in two parts. -/
theorem sdiff_pageRun (live : Set Nat) {base idx m n : Nat} (h : m ≤ n) :
    (live \ pageRun (base + idx) m) \ pageRun (base + (idx + m)) (n - m) =
      live \ pageRun (base + idx) n := by
  ext p
  simp only [Set.mem_sdiff, mem_pageRun]
  constructor
  · rintro ⟨⟨h1, h2⟩, h3⟩
    exact ⟨h1, by omega⟩
  · rintro ⟨h1, h2⟩
    exact ⟨⟨h1, by omega⟩, by omega⟩

theorem pageRun_rest {idx m n : Nat} (h : m ≤ n) (hlive : pageRun (base + idx) n ⊆ live) :
    pageRun (base + (idx + m)) (n - m) ⊆ live \ pageRun (base + idx) m := by
  rintro p ⟨h1, h2⟩
  refine ⟨hlive ⟨by omega, by omega⟩, ?_⟩
  rintro ⟨h3, h4⟩
  omega

/-- The first loop frees blocks that grow, up to where no larger block starts. -/
theorem freeUp_spec (rounds : Nat) : ∀ {b : Buddy} {live : Set Nat} {idx n k : Nat},
    BuddyOk base size b live → k + rounds = MAX_ORDER + 1 → n ≤ 2 ^ MAX_ORDER → 2 ^ k ∣ idx →
    pageRun (base + idx) n ⊆ live →
    ∃ b' idx' n' k' live', freeUp rounds b (base + idx) n k = some (b', base + idx', n', k') ∧
      BuddyOk base size b' live' ∧ n' ≤ 2 ^ MAX_ORDER ∧ n' < 2 ^ k' ∧ 2 ^ k' ∣ idx' ∧
      pageRun (base + idx') n' ⊆ live' ∧
      live' \ pageRun (base + idx') n' = live \ pageRun (base + idx) n := by
  induction rounds with
  | zero =>
    intro b live idx n k h hk hn hidx hlive
    obtain rfl : k = MAX_ORDER + 1 := by omega
    have hlt : 2 ^ MAX_ORDER < 2 ^ (MAX_ORDER + 1) := by decide
    refine ⟨b, idx, n, _, live, ?_, h, hn, by omega, hidx, hlive, rfl⟩
    rw [freeUp, Nat.one_shiftLeft, if_neg (by omega)]
  | succ rounds ih =>
    intro b live idx n k h hk hn hidx hlive
    rw [freeUp, Nat.one_shiftLeft]
    by_cases hle : 2 ^ k ≤ n
    · have hpos := Nat.two_pow_pos k
      have hz := (h.live_flags (hlive (a := base + idx) ⟨by omega, by omega⟩)).2.2
      have hpage : page2idx b (base + idx) = idx := by
        rw [page2idx, hz, h.mem_base, Nat.add_sub_cancel_left]
      rw [if_pos hle, hpage]
      by_cases hbit : idx &&& 2 ^ k = 0
      · rw [if_neg (not_not.2 hbit)]
        exact ih h (by omega) hn ((and_two_pow_eq_zero hidx).1 hbit) hlive
      · obtain ⟨b1, he, hok⟩ := buddy_free_pages_sub_spec h (k := k) (by omega) hidx (by
          intro p hp
          exact hlive ⟨hp.1, by have := hp.2; omega⟩)
        have hnext : 2 ^ (k + 1) ∣ idx + 2 ^ k := by
          rcases lower_or_upper hidx with hlow | ⟨y, rfl, hy⟩
          · exact absurd ((and_two_pow_eq_zero hidx).2 hlow) hbit
          · rw [Nat.add_assoc, ← Nat.two_mul, Nat.mul_comm, ← pow_succ]
            exact Nat.dvd_add hy (Nat.dvd_refl _)
        obtain ⟨b', idx', n', k', live', hu, hok', hn', hlt, hidx', hlive', hsame⟩ :=
          ih hok (by omega) (by omega) hnext (pageRun_rest hle hlive)
        rw [if_pos hbit, he, Nat.add_assoc]
        refine ⟨b', idx', n', k', live', hu, hok', hn', hlt, hidx', hlive', ?_⟩
        rw [hsame, sdiff_pageRun live hle]
    · rw [if_neg hle]
      exact ⟨b, idx, n, k, live, rfl, h, hn, by omega, hidx, hlive, rfl⟩

theorem fitOrder_spec {n : Nat} (hn : n ≠ 0) (order : Nat) (h : n < 2 ^ order) :
    fitOrder n order ≤ order ∧ 2 ^ fitOrder n order ≤ n ∧ n < 2 ^ (fitOrder n order + 1) := by
  induction order with
  | zero =>
    rw [pow_zero] at h
    omega
  | succ order ih =>
    rw [fitOrder, Nat.one_shiftLeft, if_pos h]
    by_cases hlt : n < 2 ^ order
    · obtain ⟨h1, h2, h3⟩ := ih hlt
      exact ⟨by omega, h2, h3⟩
    · cases order with
      | zero =>
        rw [fitOrder]
        exact ⟨by omega, by omega, h⟩
      | succ order =>
        rw [fitOrder, Nat.one_shiftLeft, if_neg hlt]
        exact ⟨by omega, by omega, h⟩

/-- The second loop frees blocks that shrink, to the end of the run. -/
theorem freeDown_spec (rounds : Nat) : ∀ {b : Buddy} {live : Set Nat} {idx n k : Nat},
    BuddyOk base size b live → n ≤ rounds → n ≤ 2 ^ MAX_ORDER → n < 2 ^ k → 2 ^ k ∣ idx →
    pageRun (base + idx) n ⊆ live →
    ∃ b', freeDown rounds b (base + idx) n k = some b' ∧
      BuddyOk base size b' (live \ pageRun (base + idx) n) := by
  have hnone : ∀ (live : Set Nat) page, live \ pageRun page 0 = live := by
    intro live page
    ext p
    simp only [Set.mem_sdiff, mem_pageRun]
    constructor
    · exact fun h => h.1
    · exact fun h => ⟨h, by omega⟩
  induction rounds with
  | zero =>
    intro b live idx n k h hr _ _ _ hlive
    obtain rfl : n = 0 := by omega
    rw [hnone]
    exact ⟨b, rfl, h⟩
  | succ rounds ih =>
    intro b live idx n k h hr hn hlt hidx hlive
    rw [freeDown]
    by_cases hz : n = 0
    · subst hz
      rw [hnone]
      exact ⟨b, rfl, h⟩
    · obtain ⟨h1, h2, h3⟩ := fitOrder_spec hz k hlt
      have hpos := Nat.two_pow_pos (fitOrder n k)
      have hmax : fitOrder n k ≤ MAX_ORDER := by
        by_contra hgt
        have := Nat.pow_lt_pow_right (a := 2) (by omega) (Nat.lt_of_not_le hgt)
        omega
      have hfit : 2 ^ fitOrder n k ∣ idx := Nat.dvd_trans (pow_dvd_pow 2 h1) hidx
      obtain ⟨b1, he, hok⟩ := buddy_free_pages_sub_spec h hmax hfit (by
        intro p hp
        exact hlive ⟨hp.1, by have := hp.2; omega⟩)
      obtain ⟨b', hd, hok'⟩ := ih (n := n - 2 ^ fitOrder n k) hok (by omega) (by omega)
        (by rw [pow_succ] at h3; omega) (Nat.dvd_add hfit (Nat.dvd_refl _))
        (pageRun_rest h2 hlive)
      refine ⟨b', ?_, ?_⟩
      · simp only [if_pos hz, he, Nat.one_shiftLeft, Nat.add_assoc]
        exact hd
      · rw [← sdiff_pageRun live h2]
        exact hok'

/-- Any run of up to 1024 live pages can be freed, wherever it starts. -/
theorem buddy_free_pages_spec (h : BuddyOk base size b live) (page n : Nat)
    (hn : 1 ≤ n ∧ n ≤ 1024) (hlive : pageRun page n ⊆ live) :
    ∃ b', buddy_free_pages b page n = some b' ∧
      BuddyOk base size b' (live \ pageRun page n) := by
  have hin := h.live_zone (hlive (a := page) ⟨Nat.le_refl _, by omega⟩)
  obtain ⟨idx, rfl⟩ := Nat.exists_eq_add_of_le hin.1
  have hone : 2 ^ 0 ∣ idx := one_dvd idx
  rw [buddy_free_pages, if_neg (by omega)]
  by_cases hn1 : n = 1
  · subst hn1
    exact buddy_free_pages_sub_spec h (k := 0) (by decide) hone hlive
  · obtain ⟨b1, idx1, n1, k1, live1, hu, hok, hm, hlt, hidx, hlive1, hsame⟩ :=
      freeUp_spec (MAX_ORDER + 1) h (k := 0) (by omega) hn.2 hone hlive
    obtain ⟨b', hd, hok'⟩ := freeDown_spec n1 hok (by omega) hm hlt hidx hlive1
    refine ⟨b', ?_, ?_⟩
    · rw [if_neg hn1, hu]
      exact hd
    · rw [← hsame]
      exact hok'

/-! ## Allocation -/

/-- The halving leaves the page alone, so its flag may as well go first. -/
theorem splitBlock_clear (order page d : Nat) (b : Buddy) :
    ClearPageProperty (splitBlock order page d b) page =
      splitBlock order page d (ClearPageProperty b page) := by
  induction d generalizing b with
  | zero => rfl
  | succ d ih =>
    rw [splitBlock, splitBlock, ih]
    congr 1
    have hne : page ≠ page + 1 <<< (order + d) := by
      rw [Nat.one_shiftLeft]
      have := Nat.two_pow_pos (order + d)
      omega
    simp only [ClearPageProperty, addBlock, list_add, nr_free_add, Buddy.edit,
      update_of_ne hne, update_of_ne hne.symm, update_comm hne]

/-- The halving frees all but the lowest block. -/
theorem splitBlock_spec (d : Nat) : ∀ {b : Buddy} {live : Set Nat} {order idx : Nat},
    BuddyOk base size b live → order + d ≤ MAX_ORDER → 2 ^ (order + d) ∣ idx →
    pageRun (base + idx) (2 ^ (order + d)) ⊆ live →
    BuddyOk base size (splitBlock order (base + idx) d b)
      (live \ pageRun (base + idx + 2 ^ order) (2 ^ (order + d) - 2 ^ order)) := by
  induction d with
  | zero =>
    intro b live order idx h _ _ _
    have hsame : live \ pageRun (base + idx + 2 ^ order) (2 ^ (order + 0) - 2 ^ order) = live := by
      ext p
      simp only [Set.mem_sdiff, mem_pageRun, Nat.add_zero, Nat.sub_self]
      constructor
      · exact fun h => h.1
      · exact fun h => ⟨h, by omega⟩
    rw [hsame]
    exact h
  | succ d ih =>
    intro b live order idx h hk hidx hlive
    have hpos := Nat.two_pow_pos (order + d)
    have hdouble : 2 ^ (order + (d + 1)) = 2 ^ (order + d) + 2 ^ (order + d) := by
      rw [← Nat.add_assoc, pow_succ]
      ring
    have hmono : 2 ^ order ≤ 2 ^ (order + d) := Nat.pow_le_pow_right (by omega) (by omega)
    have hhalf : 2 ^ (order + d) ∣ idx := Nat.dvd_trans (pow_dvd_pow 2 (by omega)) hidx
    have hgive := h.give (order + d) (idx + 2 ^ (order + d)) (by omega)
      (Nat.dvd_add hhalf (Nat.dvd_refl _))
      (by
        intro p hp
        rw [mem_pageRun] at hp
        exact hlive ⟨by omega, by omega⟩)
      (by
        intro _
        rw [xor_upper (k := order + d) hidx]
        exact h.not_head (hlive ⟨by omega, by omega⟩) _)
    have hrest := @ih _ _ order idx hgive (by omega) hhalf (by
      intro p hp
      rw [mem_pageRun] at hp
      refine ⟨hlive ⟨by omega, by omega⟩, ?_⟩
      rintro ⟨h1, h2⟩
      omega)
    rw [splitBlock, Nat.one_shiftLeft, Nat.add_assoc]
    have hsame : live \ pageRun (base + idx + 2 ^ order) (2 ^ (order + (d + 1)) - 2 ^ order) =
        (live \ pageRun (base + (idx + 2 ^ (order + d))) (2 ^ (order + d))) \
          pageRun (base + idx + 2 ^ order) (2 ^ (order + d) - 2 ^ order) := by
      ext p
      simp only [Set.mem_sdiff, mem_pageRun]
      constructor
      · rintro ⟨h1, h2⟩
        exact ⟨⟨h1, by omega⟩, by omega⟩
      · rintro ⟨⟨h1, h2⟩, h3⟩
        exact ⟨h1, by omega⟩
    rw [hsame]
    exact hrest

/-- The page `page` starts a block of the order, which was free. -/
structure Found (base size : Nat) (live : Set Nat) (order page : Nat) (b' : Buddy) : Prop where
  above : base ≤ page
  inside : page + 2 ^ order ≤ base + size
  fresh : ∀ p ∈ pageRun page (2 ^ order), p ∉ live
  ok : BuddyOk base size b' (live ∪ pageRun page (2 ^ order))

theorem allocLoop_spec {order : Nat} (rounds : Nat) : ∀ {cur : Nat} {b : Buddy} {live : Set Nat},
    BuddyOk base size b live → order ≤ cur → cur + rounds = MAX_ORDER + 1 →
    allocLoop order rounds cur b = (none, b) ∨
      ∃ page b', allocLoop order rounds cur b = (some page, b') ∧
        Found base size live order page b' := by
  induction rounds with
  | zero => exact fun _ _ _ => Or.inl rfl
  | succ rounds ih =>
    intro cur b live h hle hr
    rw [allocLoop]
    split
    · exact ih h (by omega) (by omega)
    · next page rest hl =>
      have hmem : page ∈ b.free_list cur := by
        rw [hl]
        exact List.mem_cons_self
      obtain ⟨idx, rfl⟩ := Nat.exists_eq_add_of_le (h.above hmem)
      obtain ⟨d, rfl⟩ := Nat.exists_eq_add_of_le hle
      obtain ⟨hin, hfresh⟩ := h.block hmem
      have hpos := Nat.two_pow_pos order
      have hmono : 2 ^ order ≤ 2 ^ (order + d) := Nat.pow_le_pow_right (by omega) (by omega)
      have hok := splitBlock_spec d (h.take hmem) (by omega) (h.blocks.aligned hmem)
        Set.subset_union_right
      refine Or.inr ⟨_, _, rfl, by omega, by omega, ?_, ?_⟩
      · rintro p ⟨h1, h2⟩
        exact hfresh p ⟨h1, by omega⟩
      · rw [splitBlock_clear, Nat.add_sub_cancel_left]
        have hsame : live ∪ pageRun (base + idx) (2 ^ order) =
            (live ∪ pageRun (base + idx) (2 ^ (order + d))) \
              pageRun (base + idx + 2 ^ order) (2 ^ (order + d) - 2 ^ order) := by
          ext p
          simp only [Set.mem_sdiff, Set.mem_union, mem_pageRun]
          constructor
          · rintro (h1 | h1)
            · refine ⟨Or.inl h1, ?_⟩
              intro h2
              exact hfresh p ⟨by omega, by omega⟩ h1
            · exact ⟨Or.inr (by omega), by omega⟩
          · rintro ⟨h1 | h1, h2⟩
            · exact Or.inl h1
            · exact Or.inr (by omega)
        rw [hsame]
        exact hok

theorem getorder_spec {n : Nat} (hn : n ≤ 1024) :
    ∃ order, getorder n = some order ∧ order ≤ MAX_ORDER ∧ n ≤ 2 ^ order := by
  cases ho : getorder n with
  | none =>
    have h := List.find?_eq_none.1 ho MAX_ORDER (List.mem_range.2 (Nat.lt_succ_self _))
    exact absurd (decide_eq_true hn) h
  | some order =>
    have h1 := List.mem_range.1 (List.mem_of_find?_eq_some ho)
    have h2 := List.find?_some ho
    rw [Nat.one_shiftLeft] at h2
    exact ⟨order, rfl, by omega, of_decide_eq_true h2⟩

/-- A call for up to 1024 pages finds none and changes nothing, or it makes pages live that were
free. -/
theorem buddy_alloc_pages_spec (h : BuddyOk base size b live) {n : Nat} (hn : 1 ≤ n ∧ n ≤ 1024) :
    buddy_alloc_pages b n = some (none, b) ∨
      ∃ page b', buddy_alloc_pages b n = some (some page, b') ∧ base ≤ page ∧
        page + n ≤ base + size ∧ (∀ p ∈ pageRun page n, p ∉ live) ∧
        BuddyOk base size b' (live ∪ pageRun page n) := by
  obtain ⟨order, ho, hmax, hle⟩ := getorder_spec hn.2
  have hbound : 2 ^ order ≤ 1024 := Nat.pow_le_pow_right (n := 2) (by omega) hmax
  simp only [buddy_alloc_pages, ho, buddy_alloc_pages_sub, if_neg (show ¬ n = 0 by omega),
    if_pos hmax, Nat.one_shiftLeft]
  rcases allocLoop_spec (MAX_ORDER + 1 - order) h (Nat.le_refl order) (by omega) with
    ha | ⟨page, b1, ha, hf⟩
  · rw [ha]
    exact Or.inl rfl
  · rw [ha]
    have hfresh : ∀ p ∈ pageRun page n, p ∉ live := by
      rintro p ⟨h1, h2⟩
      exact hf.fresh p ⟨h1, by omega⟩
    have hin := hf.inside
    right
    by_cases he : n = 2 ^ order
    · refine ⟨page, b1, if_neg (not_not.2 he), hf.above, by omega, hfresh, ?_⟩
      rw [he]
      exact hf.ok
    · obtain ⟨b', hb', hok⟩ := buddy_free_pages_spec hf.ok (page + n) (2 ^ order - n)
        ⟨by omega, by omega⟩ (by
          rintro p ⟨h1, h2⟩
          exact Or.inr ⟨by omega, by omega⟩)
      refine ⟨page, b', ?_, hf.above, by omega, hfresh, ?_⟩
      · simp only [if_pos he, hb', Option.map_some]
      · have hsame : live ∪ pageRun page n =
            (live ∪ pageRun page (2 ^ order)) \ pageRun (page + n) (2 ^ order - n) := by
          ext p
          simp only [Set.mem_sdiff, Set.mem_union, mem_pageRun]
          constructor
          · rintro (h1 | h1)
            · refine ⟨Or.inl h1, ?_⟩
              intro h2
              exact hf.fresh p ⟨by omega, by omega⟩ h1
            · exact ⟨Or.inr (by omega), by omega⟩
          · rintro ⟨h1 | h1, h2⟩
            · exact Or.inl h1
            · exact Or.inr (by omega)
        rw [hsame]
        exact hok

/-! ## The start -/

theorem pageRun_zero (page : Nat) : pageRun page 0 = ∅ := by
  ext p
  simp only [mem_pageRun, Set.mem_empty_iff_false, iff_false]
  omega

/-- The inner loop, where the pages that are not linked yet count as live. Below the largest
order there is room for one block, so no buddies meet. -/
theorem initOrder_spec {k : Nat} (hk : k ≤ MAX_ORDER) (rounds : Nat) :
    ∀ {b : Buddy} {idx n : Nat}, BuddyOk base size b (pageRun (base + idx) n) → idx + n = size →
    n ≤ rounds → 2 ^ k ∣ idx →
    (k = MAX_ORDER ∨ n < 2 ^ k ∨ 2 ^ (k + 1) ∣ idx ∧ n < 2 ^ (k + 1)) →
    ∃ b' idx' n', initOrder k rounds b (base + idx) n = (b', base + idx', n') ∧
      BuddyOk base size b' (pageRun (base + idx') n') ∧ idx' + n' = size ∧ n' < 2 ^ k ∧
      2 ^ k ∣ idx' := by
  have hpos := Nat.two_pow_pos k
  have hdouble : 2 ^ (k + 1) = 2 ^ k + 2 ^ k := by rw [pow_succ]; ring
  induction rounds with
  | zero =>
    intro b idx n h hs hn hidx _
    exact ⟨b, idx, n, rfl, h, hs, by omega, hidx⟩
  | succ rounds ih =>
    intro b idx n h hs hn hidx hroom
    rw [initOrder, Nat.one_shiftLeft]
    by_cases hle : 2 ^ k ≤ n
    · have hgive := h.give k idx hk hidx
        (by
          rintro p ⟨h1, h2⟩
          exact ⟨h1, by omega⟩)
        (by
          intro hlt hb
          have hlow : 2 ^ (k + 1) ∣ idx ∧ n < 2 ^ (k + 1) := by
            rcases hroom with he | hr | hr
            · omega
            · omega
            · exact hr
          rw [xor_lower hlow.1] at hb
          have hin := (h.block hb).1
          omega)
      have hrest : pageRun (base + idx) n \ pageRun (base + idx) (2 ^ k) =
          pageRun (base + (idx + 2 ^ k)) (n - 2 ^ k) := by
        ext p
        simp only [Set.mem_sdiff, mem_pageRun]
        constructor
        · rintro ⟨h1, h2⟩
          omega
        · rintro ⟨h1, h2⟩
          exact ⟨by omega, by omega⟩
      rw [hrest] at hgive
      rw [if_pos hle, Nat.add_assoc]
      apply ih hgive (by omega) (by omega) (Nat.dvd_add hidx (Nat.dvd_refl _))
      rcases hroom with he | hr | hr
      · exact Or.inl he
      · omega
      · exact Or.inr (Or.inl (by omega))
    · rw [if_neg hle]
      exact ⟨b, idx, n, rfl, h, hs, by omega, hidx⟩

theorem initOrders_spec (k : Nat) : ∀ {b : Buddy} (idx n : Nat), k ≤ MAX_ORDER →
    BuddyOk base size b (pageRun (base + idx) n) → idx + n = size → 2 ^ k ∣ idx →
    (k = MAX_ORDER ∨ 2 ^ (k + 1) ∣ idx ∧ n < 2 ^ (k + 1)) →
    BuddyOk base size (initOrders k b (base + idx) n) ∅ := by
  induction k with
  | zero =>
    intro b idx n hk h hs hidx hroom
    obtain ⟨b', idx', n', he, hok, -, hlt, -⟩ :=
      initOrder_spec hk n h hs (Nat.le_refl n) hidx (hroom.imp_right Or.inr)
    obtain rfl : n' = 0 := by
      rw [pow_zero] at hlt
      omega
    rw [initOrders, he]
    rw [pageRun_zero] at hok
    exact hok
  | succ k ih =>
    intro b idx n hk h hs hidx hroom
    obtain ⟨b', idx', n', he, hok, hs', hlt, hidx'⟩ :=
      initOrder_spec hk n h hs (Nat.le_refl n) hidx (hroom.imp_right Or.inr)
    simp only [initOrders, he]
    split
    · exact ih idx' n' (by omega) hok hs' (Nat.dvd_trans (pow_dvd_pow 2 (Nat.le_succ k)) hidx')
        (Or.inr ⟨hidx', hlt⟩)
    · next hz =>
      obtain rfl := not_not.1 hz
      rw [pageRun_zero] at hok
      exact hok

theorem init_ok {npage base n : Nat} {memory : Nat → Page} {b : Buddy} (hin : base + n ≤ npage)
    (h : buddy_init_memmap (page_init npage memory) base n = some b) : BuddyOk base n b ∅ := by
  simp only [buddy_init_memmap] at h
  split at h
  · obtain rfl := Option.some_inj.1 h
    apply initOrders_spec MAX_ORDER 0 n (Nat.le_refl _) _ (Nat.zero_add n)
      (Nat.dvd_zero _) (Or.inl rfl)
    constructor
    · exact Blocks.empty.mono fun _ _ hf => List.not_mem_nil hf
    · exact fun hp => absurd hp List.not_mem_nil
    · exact fun _ => List.nodup_nil
    · exact fun _ => rfl
    · intro page h1 h2
      dsimp only
      rw [if_pos ⟨h1, h2⟩]
      constructor
      · intro hf
        cases hf
      · rintro ⟨k, hk⟩
        exact absurd hk List.not_mem_nil
    · exact fun hp => absurd hp List.not_mem_nil
    · intro page h1 h2
      dsimp only
      rw [if_pos ⟨h1, h2⟩]
      exact ⟨rfl, rfl⟩
    · intro page hout
      dsimp only
      rw [if_neg (by omega)]
      rfl
    · change update (fun _ => 0) (0 : Int) base 0 = base
      rw [update_self]
    · exact hin
    · intro page
      rw [Nat.add_zero, mem_pageRun]
      constructor
      · rintro ⟨h1, h2⟩
        refine ⟨h1, h2, ?_⟩
        rintro ⟨k, x, hf, -⟩
        exact List.not_mem_nil hf
      · exact fun ⟨h1, h2, _⟩ => ⟨h1, h2⟩
  · cases h

/-! ## Runs -/

theorem reachable_ok {npage base n : Nat} {memory : Nat → Page} {b : Buddy} {live : Set Nat}
    (hin : base + n ≤ npage) (hr : Reachable npage memory base n b live) :
    BuddyOk base n b live := by
  induction hr with
  | init h => exact init_ok hin h
  | alloc _ hk h ih =>
    rcases buddy_alloc_pages_spec ih hk with he | ⟨page, b', he, -, -, -, hok⟩
    · rw [he] at h
      cases h
    · rw [he] at h
      obtain ⟨hp, rfl⟩ := Prod.mk.inj (Option.some_inj.1 h)
      obtain rfl := Option.some_inj.1 hp
      exact hok
  | alloc_none _ hk h ih =>
    rcases buddy_alloc_pages_spec ih hk with he | ⟨page, b', he, -⟩
    · rw [he] at h
      obtain ⟨-, rfl⟩ := Prod.mk.inj (Option.some_inj.1 h)
      exact ih
    · rw [he] at h
      cases h
  | free _ hk hlive h ih =>
    obtain ⟨b', he, hok⟩ := buddy_free_pages_spec ih _ _ hk hlive
    rw [he] at h
    obtain rfl := Option.some_inj.1 h
    exact hok

/-- With no page live the blocks are the same, however they came about. -/
theorem BuddyOk.free_list_perm {b₁ b₂ : Buddy} (h₁ : BuddyOk base size b₁ ∅)
    (h₂ : BuddyOk base size b₂ ∅) (k : Nat) : (b₁.free_list k).Perm (b₂.free_list k) := by
  have hfull : ∀ {b}, BuddyOk base size b ∅ → ∀ i < size, Covers (b.freeBlock base) i := by
    intro b h i hi
    by_contra hc
    refine Set.notMem_empty (base + i) ((h.live (base + i)).2 ⟨by omega, by omega, ?_⟩)
    rw [Nat.add_sub_cancel_left]
    exact hc
  rw [List.perm_ext_iff_of_nodup (h₁.nodup k) (h₂.nodup k)]
  intro page
  constructor
  · intro hp
    obtain ⟨idx, rfl⟩ := Nat.exists_eq_add_of_le (h₁.above hp)
    exact h₁.blocks.unique h₂.blocks (hfull h₁) (hfull h₂) hp
  · intro hp
    obtain ⟨idx, rfl⟩ := Nat.exists_eq_add_of_le (h₂.above hp)
    exact h₂.blocks.unique h₁.blocks (hfull h₂) (hfull h₁) hp

/-- The pages of the free blocks. -/
def Buddy.freePages (b : Buddy) : Set Nat :=
  {page | ∃ order, ∃ head ∈ b.free_list order, page ∈ pageRun head (2 ^ order)}

theorem BuddyOk.mem_freePages (h : BuddyOk base size b live) (page : Nat) :
    page ∈ b.freePages ↔ page ∈ pageRun base size ∧ page ∉ live := by
  rw [h.live, mem_pageRun]
  constructor
  · rintro ⟨k, head, hk, h1, h2⟩
    obtain ⟨idx, rfl⟩ := Nat.exists_eq_add_of_le (h.above hk)
    have hin := h.blocks.inside hk
    refine ⟨⟨by omega, by omega⟩, ?_⟩
    rintro ⟨-, -, hc⟩
    exact hc ⟨k, idx, hk, by omega, by omega⟩
  · rintro ⟨⟨h1, h2⟩, hc⟩
    by_contra hf
    apply hc
    refine ⟨h1, h2, ?_⟩
    rintro ⟨k, idx, hk, h3, h4⟩
    exact hf ⟨k, base + idx, hk, by omega, by omega⟩

/-- After any calls on the map that `page_init` makes: the free blocks and the live pages share
out the zone, the blocks are aligned and apart, the counters are right and no two buddies are
free. No assertion fails in the next call, a call that finds pages gives pages that were free,
and when all pages are back the lists hold the blocks of the start. -/
theorem buddy_ok (npage base n : Nat) (memory : Nat → Page) (hn : 0 < n)
    (hin : base + n ≤ npage) :
    ∃ b₀, buddy_init_memmap (page_init npage memory) base n = some b₀ ∧
      ∀ b live, Reachable npage memory base n b live →
        Disjoint b.freePages live ∧ b.freePages ∪ live = pageRun base n ∧
        (∀ order head, head ∈ b.free_list order →
          order ≤ MAX_ORDER ∧ base ≤ head ∧ 2 ^ order ∣ head - base ∧
          pageRun head (2 ^ order) ⊆ b.freePages ∧
          ∀ order' head', head' ∈ b.free_list order' →
            order' = order ∧ head' = head ∨
              Disjoint (pageRun head (2 ^ order)) (pageRun head' (2 ^ order'))) ∧
        (∀ order, (b.free_list order).Nodup ∧
          b.nr_free order = (b.free_list order).length) ∧
        (∀ order < MAX_ORDER, ∀ head ∈ b.free_list order, ∀ head' ∈ b.free_list order,
          head' - base ≠ (head - base) ^^^ 2 ^ order) ∧
        (∀ k, 1 ≤ k → k ≤ 1024 → ∃ r b', buddy_alloc_pages b k = some (r, b') ∧
          ∀ page, r = some page →
            pageRun page k ⊆ pageRun base n ∧ Disjoint (pageRun page k) live) ∧
        (∀ page k, 1 ≤ k → k ≤ 1024 → pageRun page k ⊆ live →
          buddy_free_pages b page k ≠ none) ∧
        (live = ∅ → ∀ order, (b.free_list order).Perm (b₀.free_list order)) := by
  obtain ⟨b₀, h₀⟩ : ∃ b₀, buddy_init_memmap (page_init npage memory) base n = some b₀ := by
    unfold buddy_init_memmap
    rw [if_pos ⟨hn, (by decide : (0 : Int) < MAX_ZONE_NUM), fun _ _ => rfl⟩]
    exact ⟨_, rfl⟩
  refine ⟨b₀, h₀, ?_⟩
  intro b live hr
  have h := reachable_ok hin hr
  refine ⟨?_, ?_, ?_, fun k => ⟨h.nodup k, h.count k⟩, ?_, ?_, ?_, ?_⟩
  · rw [Set.disjoint_left]
    exact fun page hp => ((h.mem_freePages page).1 hp).2
  · ext page
    rw [Set.mem_union, h.mem_freePages]
    constructor
    · rintro (hp | hp)
      · exact hp.1
      · exact h.live_zone hp
    · intro hp
      by_cases hl : page ∈ live
      · exact Or.inr hl
      · exact Or.inl ⟨hp, hl⟩
  · intro k head hk
    obtain ⟨idx, rfl⟩ := Nat.exists_eq_add_of_le (h.above hk)
    refine ⟨h.blocks.order hk, by omega, ?_, fun p hp => ⟨k, _, hk, hp⟩, ?_⟩
    · rw [Nat.add_sub_cancel_left]
      exact h.blocks.aligned hk
    · intro j head' hj
      obtain ⟨idx', rfl⟩ := Nat.exists_eq_add_of_le (h.above hj)
      by_cases he : j = k ∧ idx' = idx
      · exact Or.inl ⟨he.1, by rw [he.2]⟩
      · right
        rw [Set.disjoint_left]
        rintro p ⟨h1, h2⟩ ⟨h3, h4⟩
        obtain ⟨rfl, rfl⟩ := h.blocks.apart (i := p - base) hk hj (by omega) (by omega) (by omega)
          (by omega)
        exact he ⟨rfl, rfl⟩
  · intro k hk head hh head' hh' he
    obtain ⟨idx, rfl⟩ := Nat.exists_eq_add_of_le (h.above hh)
    obtain ⟨idx', rfl⟩ := Nat.exists_eq_add_of_le (h.above hh')
    rw [Nat.add_sub_cancel_left, Nat.add_sub_cancel_left] at he
    subst he
    exact h.blocks.merged hh hk hh'
  · intro k h1 h2
    rcases buddy_alloc_pages_spec h ⟨h1, h2⟩ with he | ⟨page, b', he, hb, he', hfresh, -⟩
    · refine ⟨none, b, he, ?_⟩
      intro page hp
      cases hp
    · refine ⟨some page, b', he, ?_⟩
      intro page' hp
      obtain rfl := Option.some_inj.1 hp
      constructor
      · rintro p ⟨h3, h4⟩
        exact ⟨by omega, by omega⟩
      · rw [Set.disjoint_left]
        exact hfresh
  · intro page k h1 h2 hlive hnone
    obtain ⟨b', he, -⟩ := buddy_free_pages_spec h page k ⟨h1, h2⟩ hlive
    rw [he] at hnone
    cases hnone
  · rintro rfl k
    exact h.free_list_perm (init_ok hin h₀) k

/-- Memory that holds anything before the start. -/
def anyPage : Page := ⟨7, false, true, 3, 5⟩

/-- Eight pages of a zone of 22, then three of the eight freed from the middle. -/
theorem buddy_ok_partOfOne : ∃ b live, Reachable 40 (fun _ => anyPage) 5 22 b live ∧
    live = (∅ ∪ pageRun 5 8) \ pageRun 6 3 ∧ b.freePages ∪ live = pageRun 5 22 := by
  obtain ⟨b₀, h₀, hall⟩ := buddy_ok 40 5 22 (fun _ => anyPage) (by decide) (by decide)
  have hstart := Reachable.init h₀
  obtain ⟨-, -, -, -, -, halloc, -⟩ := hall b₀ ∅ hstart
  obtain ⟨r, b₁, h₁, -⟩ := halloc 8 (by decide) (by decide)
  have hpage : ((buddy_init_memmap (page_init 40 fun _ => anyPage) 5 22).bind fun b =>
      (buddy_alloc_pages b 8).map Prod.fst) = some (some 5) := by
    decide +kernel
  rw [h₀, Option.bind_some, h₁, Option.map_some] at hpage
  obtain rfl : r = some 5 := Option.some_inj.1 hpage
  have hone := hstart.alloc ⟨by decide, by decide⟩ h₁
  obtain ⟨-, -, -, -, -, -, hfree, -⟩ := hall b₁ _ hone
  have hsub : pageRun 6 3 ⊆ ∅ ∪ pageRun 5 8 := by
    rintro p ⟨h1, h2⟩
    exact Or.inr ⟨by omega, by omega⟩
  obtain ⟨b₂, h₂⟩ := Option.ne_none_iff_exists'.1 (hfree 6 3 (by decide) (by decide) hsub)
  have htwo := hone.free ⟨by decide, by decide⟩ hsub h₂
  exact ⟨b₂, _, htwo, rfl, (hall b₂ _ htwo).2.1⟩

end nehcpu.kernel.buddy
