-- The block map of an inode as an array of block numbers, the law that says whose each block of the
-- disk is, and what loading, adding and dropping a block does to both.
import Nehcpu.Kernel.SfsBlocks
import Nehcpu.Lib.Ledger

namespace nehcpu.kernel.fs

open Function nehcpu.command nehcpu.command.Cmd nehcpu.buffer nehcpu.ledger

/-- The blocks that the direct entries and the indirect block reach. -/
def MAX_MAPPED : Nat := SFS_NDIRECT + SFS_BLK_NENTRY

/-- The block of the file at an index, zero where there is none. -/
def bmap (c : Call) (i : Nat) : Nat :=
  if i < SFS_NDIRECT then c.sin.din.direct i
  else if c.sin.din.indirect = 0 then 0
  else leAt 4 (c.sfs.disk c.sin.din.indirect) ((i - SFS_NDIRECT) * 4)

abbrev Call.blocks (c : Call) : Nat := c.sin.din.blocks

def indexBlock (c : Call) : List Nat :=
  if c.sin.din.indirect = 0 then [] else [c.sin.din.indirect]

/-- All blocks that the inode reaches: the indirect block and the blocks of the file. -/
def layout (c : Call) : List Nat := indexBlock c ++ (List.range c.blocks).map (bmap c)

/-- The map has a block at the indices below `blocks` and none above, and the blocks of the disk
are free, held by others or in the map. `held` is what belongs to others: the metadata and the
blocks of other inodes. -/
structure Mapped (held : Nat → Prop) (c : Call) : Prop where
  free : FreeOk c
  ledger : Ledger (· < c.sfs.super.blocks) held (· ∈ c.free) (layout c)
  bound : c.blocks ≤ MAX_MAPPED
  none : ∀ i, c.blocks ≤ i → i < MAX_MAPPED → bmap c i = 0
  zero : held 0
  own : held c.sin.ino

section

variable {held : Nat → Prop} {c t : Call} {i b : Nat}

theorem mem_layout (h : i < c.blocks) : bmap c i ∈ layout c := by
  apply List.mem_append_right
  exact List.mem_map_of_mem (List.mem_range.2 h)

theorem indirect_mem_layout (h : c.sin.din.indirect ≠ 0) : c.sin.din.indirect ∈ layout c := by
  apply List.mem_append_left
  simp [indexBlock, h]

/-- A block of the inode can be read and written. -/
theorem Mapped.block (h : Mapped held c) (hb : b ∈ layout c) :
    b ≠ 0 ∧ b < c.sfs.super.blocks ∧ b ∉ c.free ∧ ¬ held b := by
  have ha := h.ledger.apart b hb
  refine ⟨?_, h.ledger.inside b hb, ha.2, ha.1⟩
  rintro rfl
  exact ha.1 h.zero

theorem Mapped.free_block (h : Mapped held c) (hb : b ∈ c.free) :
    b ≠ 0 ∧ b < c.sfs.super.blocks ∧ ¬ held b ∧ b ∉ layout c :=
  ⟨(h.free.within b hb).1, (h.free.within b hb).2, h.ledger.free_held b hb,
    fun hm => (h.ledger.apart b hm).2 hb⟩

theorem Mapped.bmap_ne (h : Mapped held c) (hi : i < c.blocks) : bmap c i ≠ 0 :=
  (h.block (mem_layout hi)).1

/-- Two indices of the file have two blocks. -/
theorem Mapped.inj (h : Mapped held c) {j : Nat} (hi : i < c.blocks) (hj : j < c.blocks)
    (he : bmap c i = bmap c j) : i = j := by
  have hn : ((List.range c.blocks).map (bmap c)).Nodup :=
    (List.nodup_append.1 h.ledger.nodup).2.1
  exact List.inj_on_of_nodup_map hn (List.mem_range.2 hi) (List.mem_range.2 hj) he

theorem Mapped.ne_indirect (h : Mapped held c) (hi : i < c.blocks) :
    bmap c i ≠ c.sin.din.indirect := by
  intro he
  by_cases h0 : c.sin.din.indirect = 0
  · exact h.bmap_ne hi (he.trans h0)
  · apply (List.nodup_append.1 h.ledger.nodup).2.2 c.sin.din.indirect _ (bmap c i) _ he.symm
    · simp [indexBlock, h0]
    · exact List.mem_map_of_mem (List.mem_range.2 hi)

/-- What belongs to others and the blocks of the file are not free. -/
theorem Mapped.kept_ne (h : Mapped held c) {a : Nat}
    (ha : held a ∨ ∃ i, i < c.blocks ∧ bmap c i = a) (hb : b ∈ c.free) : a ≠ b := by
  rintro rfl
  rcases ha with ha | ⟨i, hi, rfl⟩
  · exact (h.free_block hb).2.2.1 ha
  · exact (h.free_block hb).2.2.2 (mem_layout hi)

/-- None of them is the indirect block. -/
theorem Mapped.kept_ne_indirect (h : Mapped held c) (h0 : c.sin.din.indirect ≠ 0) {a : Nat}
    (ha : held a ∨ ∃ i, i < c.blocks ∧ bmap c i = a) : a ≠ c.sin.din.indirect := by
  rintro rfl
  rcases ha with ha | ⟨i, hi, he⟩
  · exact (h.block (indirect_mem_layout h0)).2.2.2 ha
  · exact h.ne_indirect hi he

/-- A file with blocks past the direct ones has its indirect block. -/
theorem Mapped.indirect_ne (h : Mapped held c) (hb : SFS_NDIRECT < c.blocks) :
    c.sin.din.indirect ≠ 0 := by
  intro h0
  apply h.bmap_ne hb
  simp [bmap, h0]

end

/-! ## What a call may leave as it was -/

/-- Nothing is changed but what free blocks hold. -/
structure Untouched (c t : Call) : Prop where
  sin : t.sin = c.sin
  freemap : t.sfs.freemap = c.sfs.freemap
  super : t.sfs.super = c.sfs.super
  disk : ∀ b, b ∉ c.free → t.sfs.disk b = c.sfs.disk b

theorem Untouched.refl (c : Call) : Untouched c c := ⟨rfl, rfl, rfl, fun _ _ => rfl⟩

/-- A block that was taken and given back is as free as before. -/
theorem FreeOk.untouched_give {c t : Call} {b : Nat} (h : FreeOk c) (hb : b ∈ c.free)
    (hu : Untouched (c.take b) t) : Untouched c (t.give b) where
  sin := hu.sin
  freemap := by
    have hm : (t.give b).sfs.freemap = (c.sfs.freemap.take b).give b :=
      congrArg (bitmap.give · b) hu.freemap
    rw [hm, bitmap.give_take ((c.mem_free b).1 hb).2]
  super := by
    have hs : (t.give b).sfs.super.unused_blocks = (c.take b).sfs.super.unused_blocks + 1 := by
      simp only [Call.give, hu.super]
    have hbl : (t.give b).sfs.super.blocks = c.sfs.super.blocks := by
      simp only [Call.give, hu.super, Call.take]
    rw [(h.take hb).2.2] at hs
    cases hts : (t.give b).sfs.super
    cases hcs : c.sfs.super
    simp_all
  disk a ha := by
    have hne : a ≠ b := fun he => ha (he ▸ hb)
    have hn : a ∉ (c.take b).free := by
      rw [(h.take hb).2.1]
      exact fun hm => ha (Finset.mem_of_mem_erase hm)
    calc (t.give b).sfs.disk a = (c.take b).sfs.disk a := hu.disk a hn
      _ = c.sfs.disk a := update_of_ne hne _ _

section

variable {held : Nat → Prop} {c t : Call}

theorem Untouched.free (h : Untouched c t) : t.free = c.free := by
  rw [Call.free, h.freemap, Call.free]

theorem Untouched.bmap_eq (hu : Untouched c t) (h : Mapped held c) : bmap t = bmap c := by
  funext i
  unfold bmap
  rw [hu.sin]
  by_cases h0 : c.sin.din.indirect = 0
  · simp [h0]
  · rw [hu.disk _ (h.block (indirect_mem_layout h0)).2.2.1]

theorem FreeOk.congr (h : FreeOk c) (hm : t.sfs.freemap = c.sfs.freemap)
    (hs : t.sfs.super = c.sfs.super) : FreeOk t := by
  have hf : t.free = c.free := by
    rw [Call.free, hm, Call.free]
  refine ⟨?_, ?_, ?_, ?_, ?_⟩
  · rw [hm]
    exact h.nbits
  · rw [hm, hs]
    exact h.fits
  · rw [hs]
    exact h.narrow
  · rw [hs, hf]
    exact h.within
  · rw [hs, hf]
    exact h.count

theorem Untouched.freeOk (hu : Untouched c t) (h : FreeOk c) : FreeOk t :=
  h.congr hu.freemap hu.super

theorem Untouched.layout_eq (hu : Untouched c t) (h : Mapped held c) : layout t = layout c := by
  unfold layout indexBlock Call.blocks
  rw [hu.bmap_eq h, hu.sin]

theorem Untouched.mapped (hu : Untouched c t) (h : Mapped held c) : Mapped held t := by
  refine ⟨hu.freeOk h.free, ?_, ?_, ?_, h.zero, ?_⟩
  · rw [hu.layout_eq h, hu.free, hu.super]
    exact h.ledger
  · rw [Call.blocks, hu.sin]
    exact h.bound
  · rw [Call.blocks, hu.sin, hu.bmap_eq h]
    exact h.none
  · rw [hu.sin]
    exact h.own

end

/-! ## Adding a block -/

/-- The entry of `ent` at `index` becomes the block `b`, that was free. -/
def Call.link (u : Call) (ent index b : Nat) : Call :=
  (u.take b).setDisk ent (patch (u.sfs.disk ent) (index * 4) (leBytes 4 b))

section

variable {held : Nat → Prop} {c : Call} {dop_io : Access → Int} {X : Prop} {entp ent index : Nat}

theorem wp_linkNew (h : FreeOk c) (hclear : dop_io .clear = 0)
    (hent : ent ≠ 0 ∧ ent < c.sfs.super.blocks ∧ ent ∉ c.free) (hi : index < SFS_BLK_NENTRY) :
    Wp (linkNew dop_io entp ent index)
      (fun r t => r.1 = ent ∧ r.2 ∈ c.free ∧ t = c.link ent index r.2 ∧
        dop_io .linkRead = 0 ∧ dop_io .linkWrite = 0)
      (fun _ t => ∃ u, Untouched c u ∧ (c.free = ∅ ∨ ∃ a, dop_io a ≠ 0) ∧
        t = if ent ≠ entp then u.give ent else u) X c := by
  have hcleanup : ∀ u, Untouched c u → (c.free = ∅ ∨ ∃ a, dop_io a ≠ 0) → ∀ e : Int,
      Wp (if ent ≠ entp then sfs_block_free ent else pure ())
        (fun _ t => ∃ u, Untouched c u ∧ (c.free = ∅ ∨ ∃ a, dop_io a ≠ 0) ∧
          t = if ent ≠ entp then u.give ent else u)
        (fun _ t => ∃ u, Untouched c u ∧ (c.free = ∅ ∨ ∃ a, dop_io a ≠ 0) ∧
          t = if ent ≠ entp then u.give ent else u) X u := by
    intro u hu hs _
    rw [wp_ite]
    split
    · apply wp_block_free (hu.freeOk h) hent.1
      · rw [hu.super]
        exact hent.2.1
      · rw [hu.free]
        exact hent.2.2
      · exact ⟨u, hu, hs, rfl⟩
    · exact ⟨u, hu, hs, rfl⟩
  unfold linkNew
  rw [wp_onFail, wp_bind, hclear]
  apply Wp.mono (wp_block_alloc h) _ _ id
  · rintro b _ ⟨hb, rfl⟩
    have ht := h.take hb
    have hne : ent ≠ b := fun he => hent.2.2 (he ▸ hb)
    have hw := h.within b hb
    have hoff : index * 4 < SFS_BLKSIZE ∧ index * 4 + (leBytes 4 b).length ≤ SFS_BLKSIZE := by
      rw [leBytes_length]
      unfold SFS_BLKSIZE
      unfold SFS_BLK_NENTRY at hi
      omega
    have hblk : ent ≠ 0 ∧ ent < (c.take b).sfs.super.blocks := ⟨hent.1, hent.2.1⟩
    rw [wp_bind, wp_onFail]
    apply wp_wbuf hblk hoff
    · intro hr hw
      refine ⟨rfl, hb, ?_, hr, hw⟩
      have hd : (c.take b).sfs.disk ent = c.sfs.disk ent := update_of_ne hne _ _
      rw [Call.link, ← hd]
    · intro e hio
      have hs : ∃ a, dop_io a ≠ 0 := hio.elim (fun hr => ⟨_, hr⟩) fun hr => ⟨_, hr⟩
      apply wp_block_free ht.1 hw.1 hw.2
      · rw [ht.2.1]
        exact Finset.notMem_erase b c.free
      · exact hcleanup _ (h.untouched_give hb (Untouched.refl _)) (Or.inr hs) e
  · rintro e _ ⟨rfl, hemp⟩
    exact hcleanup _ (Untouched.refl _) (Or.inl hemp) e

/-- The index block that the new entry goes into, and the state that has it. -/
def IndexFor (c : Call) (entp ent : Nat) (u : Call) : Prop :=
  entp ≠ 0 ∧ ent = entp ∧ u = c ∨ entp = 0 ∧ ent ∈ c.free ∧ u = c.take ent

/-- The device does all that an entry in an index block that is there asks of it. -/
def LinkAnswers (dop_io : Access → Int) : Prop :=
  dop_io .index = 0 ∧ dop_io .linkRead = 0 ∧ dop_io .linkWrite = 0

/-- The blocks that one more entry takes. -/
def entryNeed (entp : Nat) : Nat := if entp = 0 then 2 else 1

theorem wp_sub_new (h : FreeOk c) (hclear : dop_io .clear = 0) (hclear' : dop_io .clearIndex = 0)
    (hi : index < SFS_BLK_NENTRY)
    (hentp : entp ≠ 0 → entp < c.sfs.super.blocks ∧ entp ∉ c.free ∧
      leAt 4 (c.sfs.disk entp) (index * 4) = 0) :
    Wp (sfs_bmap_get_sub_nolock dop_io entp index true)
      (fun r t => (entp ≠ 0 → LinkAnswers dop_io) ∧
        ∃ u, IndexFor c entp r.1 u ∧ r.2 ∈ u.free ∧ t = u.link r.1 index r.2)
      (fun _ t => Untouched c t ∧ (c.free.card < entryNeed entp ∨ ∃ a, dop_io a ≠ 0)) X c := by
  unfold sfs_bmap_get_sub_nolock
  rw [wp_bind, wp_check, if_pos hi, wp_ite]
  by_cases h0 : entp = 0
  · subst h0
    rw [if_neg (fun hn => hn rfl), wp_ite, if_neg (by simp), wp_bind, hclear']
    apply Wp.mono (wp_block_alloc h) _ _ id
    · rintro ent _ ⟨he, rfl⟩
      have ht := h.take he
      have hw := h.within ent he
      have hent : ent ∉ (c.take ent).free := by
        rw [ht.2.1]
        exact Finset.notMem_erase ent c.free
      apply Wp.mono (wp_linkNew ht.1 hclear ⟨hw.1, hw.2, hent⟩ hi) _ _ id
      · rintro ⟨ent', b⟩ t ⟨rfl, hb, rfl, -⟩
        exact ⟨fun hn => absurd rfl hn, _, Or.inr ⟨rfl, he, rfl⟩, hb, rfl⟩
      · rintro e t ⟨u, hu, hs, rfl⟩
        rw [if_pos hw.1]
        refine ⟨h.untouched_give he hu, ?_⟩
        apply hs.imp_left
        intro hemp
        have hcard := Finset.card_erase_add_one he
        rw [← ht.2.1, hemp, Finset.card_empty] at hcard
        simp only [entryNeed, if_pos]
        omega
    · rintro e _ ⟨rfl, hemp⟩
      refine ⟨Untouched.refl _, Or.inl ?_⟩
      rw [hemp, Finset.card_empty]
      simp [entryNeed]
  · obtain ⟨hlt, hnf, hent0⟩ := hentp h0
    have hoff : index * 4 < SFS_BLKSIZE ∧ index * 4 + 4 ≤ SFS_BLKSIZE := by
      unfold SFS_BLKSIZE
      unfold SFS_BLK_NENTRY at hi
      omega
    rw [if_pos h0, wp_bind]
    apply wp_rbuf ⟨h0, hlt⟩ hoff
    · intro hix
      have hz : ¬ (leNat (slice (c.sfs.disk entp) (index * 4) 4) ≠ 0 ∨ !true) := by
        rw [← leAt, hent0]
        simp
      rw [wp_ite, if_neg hz]
      apply Wp.mono (wp_linkNew h hclear ⟨h0, hlt, hnf⟩ hi) _ _ id
      · rintro ⟨ent', b⟩ t ⟨rfl, hb, rfl, hr, hw⟩
        exact ⟨fun _ => ⟨hix, hr, hw⟩, c, Or.inl ⟨h0, rfl, rfl⟩, hb, rfl⟩
      · rintro e t ⟨u, hu, hs, rfl⟩
        rw [if_neg (fun hn => hn rfl)]
        refine ⟨hu, ?_⟩
        apply hs.imp_left
        intro hemp
        rw [hemp, Finset.card_empty]
        simp [entryNeed, h0]
    · exact fun hr => ⟨Untouched.refl c, Or.inr ⟨_, hr⟩⟩

end

/-- The blocks that it takes to make the file `n` blocks long. -/
def need (c : Call) (n : Nat) : Nat :=
  (n - c.blocks) + if c.sin.din.indirect = 0 ∧ SFS_NDIRECT < n then 1 else 0

/-- The block `b` is added at the end of the file, filled with zeros. -/
structure Grown (held : Nat → Prop) (c t : Call) (b : Nat) : Prop where
  mapped : Mapped held t
  ino : t.sin.ino = c.sin.ino
  size : t.sin.din.size = c.sin.din.size
  type : t.sin.din.type = c.sin.din.type
  blocks : t.blocks = c.blocks + 1
  bmap : ∀ i, i < MAX_MAPPED → bmap t i = if i = c.blocks then b else bmap c i
  indirect : t.sin.din.indirect = 0 ↔ c.sin.din.indirect = 0 ∧ c.blocks < SFS_NDIRECT
  dirty : t.sin.dirty = true ↔
    c.sin.dirty = true ∨ c.blocks < SFS_NDIRECT ∨ c.sin.din.indirect = 0
  super : t.sfs.super.blocks = c.sfs.super.blocks
  free : t.free.card + need c (c.blocks + 1) = c.free.card
  kept : ∀ a, held a ∨ (∃ i, i < c.blocks ∧ nehcpu.kernel.fs.bmap c i = a) →
    t.sfs.disk a = c.sfs.disk a
  new : t.sfs.disk b = Buffer.zero

section

variable {held : Nat → Prop} {c t : Call} {b ent : Nat}

/-- The map of the longer file, up to the indirect block. -/
theorem layout_grown (hbl : t.blocks = c.blocks + 1) (hlt : c.blocks < MAX_MAPPED)
    (hmap : ∀ i, i < MAX_MAPPED → bmap t i = if i = c.blocks then b else bmap c i) :
    layout t = indexBlock t ++ ((List.range c.blocks).map (bmap c) ++ [b]) := by
  unfold layout
  rw [hbl, List.range_succ, List.map_append, List.map_singleton, hmap _ hlt, if_pos rfl]
  congr 2
  apply List.map_congr_left
  intro i hi
  have hi := List.mem_range.1 hi
  rw [hmap i (by omega), if_neg (by omega)]

theorem Mapped.none_grown (h : Mapped held c) (hbl : t.blocks = c.blocks + 1)
    (hmap : ∀ i, i < MAX_MAPPED → bmap t i = if i = c.blocks then b else bmap c i) (i : Nat)
    (hi : t.blocks ≤ i) (hi' : i < MAX_MAPPED) : bmap t i = 0 := by
  rw [hmap i hi', if_neg (by omega)]
  exact h.none i (by omega) hi'

/-- What is to be shown of a state where the file has the block `b` more. -/
theorem Mapped.grown (h : Mapped held c) (hlt : c.blocks < MAX_MAPPED) (hfree : FreeOk t)
    (hledger : Ledger (· < t.sfs.super.blocks) held (· ∈ t.free) (layout t))
    (hbl : t.blocks = c.blocks + 1) (hino : t.sin.ino = c.sin.ino)
    (hmap : ∀ i, i < MAX_MAPPED → bmap t i = if i = c.blocks then b else bmap c i) :
    Mapped held t where
  free := hfree
  ledger := hledger
  bound := by omega
  none := h.none_grown hbl hmap
  zero := h.zero
  own := by
    rw [hino]
    exact h.own

theorem need_one (h : c.sin.din.indirect = 0 → c.blocks < SFS_NDIRECT) :
    need c (c.blocks + 1) = 1 := by
  unfold need
  rw [if_neg]
  · omega
  · rintro ⟨h0, hlt⟩
    have hd := h h0
    omega

theorem need_two (h0 : c.sin.din.indirect = 0) (hge : SFS_NDIRECT ≤ c.blocks) :
    need c (c.blocks + 1) = 2 := by
  unfold need
  rw [if_pos ⟨h0, by omega⟩]
  omega

/-- The ledger where the indirect block stays as it is. -/
theorem Mapped.ledger_grown (h : Mapped held c) (hb : b ∈ c.free)
    (hl : layout t = indexBlock c ++ ((List.range c.blocks).map (bmap c) ++ [b]))
    (hsuper : t.sfs.super.blocks = c.sfs.super.blocks) (hf : t.free = c.free.erase b) :
    Ledger (· < t.sfs.super.blocks) held (· ∈ t.free) (layout t) := by
  have ht : Ledger (· < c.sfs.super.blocks) held (· ∈ t.free) (b :: layout c) := by
    apply h.ledger.take hb (h.free.within b hb).2
    intro a
    rw [hf, Finset.mem_erase]
    exact and_comm
  rw [hsuper]
  apply ht.perm
  rw [hl, ← List.append_assoc]
  exact @List.perm_append_comm _ [b] (layout c)

/-- The entries of an index block after one of them is written. -/
theorem entry_patch {buf : Buffer} {k n : Nat} (hn : n ≤ 2 ^ 32) (hb : b < n) (j : Nat) :
    leAt 4 (patch buf (k * 4) (leBytes 4 b)) (j * 4) = if j = k then b else leAt 4 buf (j * 4) := by
  by_cases hj : j = k
  · subst hj
    rw [if_pos rfl, leAt_patch]
    apply Nat.mod_eq_of_lt
    exact Nat.lt_of_lt_of_le hb hn
  · rw [if_neg hj]
    apply leAt_patch_of_apart
    rw [leBytes_length]
    omega

theorem grown_direct (h : Mapped held c) (hlt : c.blocks < SFS_NDIRECT) (hb : b ∈ c.free) :
    Grown held c (set_blocks (c.blocks + 1) (set_direct c.blocks b (c.take b))) b := by
  set t := set_blocks (c.blocks + 1) (set_direct c.blocks b (c.take b))
  have hfree := h.free.take hb
  have hfb := h.free_block hb
  have hmax : SFS_NDIRECT ≤ MAX_MAPPED := Nat.le_add_right _ _
  have hmap : ∀ i, i < MAX_MAPPED → bmap t i = if i = c.blocks then b else bmap c i := by
    intro i _
    by_cases hi : i < SFS_NDIRECT
    · by_cases he : i = c.blocks
      · subst he
        simp [bmap, t, set_blocks, set_direct, hi, update_self]
      · simp [bmap, t, set_blocks, set_direct, Call.take, hi, he, update_of_ne]
    · rw [if_neg (by omega)]
      by_cases h0 : c.sin.din.indirect = 0
      · simp [bmap, t, set_blocks, set_direct, Call.take, hi, h0]
      · have hne : c.sin.din.indirect ≠ b := fun he => hfb.2.2.2 (he ▸ indirect_mem_layout h0)
        simp [bmap, t, set_blocks, set_direct, Call.take, hi, h0, update_of_ne hne]
  have hl : layout t = indexBlock c ++ ((List.range c.blocks).map (bmap c) ++ [b]) :=
    layout_grown rfl (by omega) hmap
  have hft : t.free = c.free.erase b := hfree.2.1
  exact
    { mapped := h.grown (by omega) (hfree.1.congr rfl rfl) (h.ledger_grown hb hl rfl hft) rfl rfl hmap
      ino := rfl
      size := rfl
      type := rfl
      blocks := rfl
      bmap := hmap
      indirect := ⟨fun hi => ⟨hi, hlt⟩, fun hi => hi.1⟩
      dirty := ⟨fun _ => Or.inr (Or.inl hlt), fun _ => rfl⟩
      super := rfl
      free := by
        rw [need_one fun _ => hlt, hft]
        exact Finset.card_erase_add_one hb
      kept := fun _ ha => update_of_ne (h.kept_ne ha hb) _ _
      new := update_self _ _ _ }

theorem grown_index (h : Mapped held c) (hge : SFS_NDIRECT ≤ c.blocks) (hlt : c.blocks < MAX_MAPPED)
    (h0 : c.sin.din.indirect ≠ 0) (hb : b ∈ c.free) :
    Grown held c
      (set_blocks (c.blocks + 1) (c.link c.sin.din.indirect (c.blocks - SFS_NDIRECT) b)) b := by
  set t := set_blocks (c.blocks + 1) (c.link c.sin.din.indirect (c.blocks - SFS_NDIRECT) b)
  have hfree := h.free.take hb
  have hfb := h.free_block hb
  have hib := h.block (indirect_mem_layout h0)
  have hmap : ∀ i, i < MAX_MAPPED → bmap t i = if i = c.blocks then b else bmap c i := by
    intro i _
    by_cases hi : i < SFS_NDIRECT
    · rw [if_neg (by omega)]
      simp [bmap, t, set_blocks, Call.link, Call.setDisk, Call.take, hi]
    · have he : (i - SFS_NDIRECT = c.blocks - SFS_NDIRECT) ↔ i = c.blocks := by omega
      simp only [bmap, t, set_blocks, Call.link, Call.setDisk, Call.take, if_neg hi, if_neg h0,
        update_self]
      rw [entry_patch h.free.narrow hfb.2.1]
      simp only [he]
  have hl : layout t = indexBlock c ++ ((List.range c.blocks).map (bmap c) ++ [b]) :=
    layout_grown rfl hlt hmap
  have hft : t.free = c.free.erase b := hfree.2.1
  exact
    { mapped := h.grown hlt (hfree.1.congr rfl rfl) (h.ledger_grown hb hl rfl hft) rfl rfl hmap
      ino := rfl
      size := rfl
      type := rfl
      blocks := rfl
      bmap := hmap
      indirect := ⟨fun hi => absurd hi h0, fun hi => absurd hi.1 h0⟩
      dirty := by
        constructor
        · exact fun hd => Or.inl hd
        · rintro (hd | hd | hd)
          · exact hd
          · omega
          · exact absurd hd h0
      super := rfl
      free := by
        rw [need_one fun hn => absurd hn h0, hft]
        exact Finset.card_erase_add_one hb
      kept := by
        intro a ha
        have hai := h.kept_ne_indirect h0 ha
        have hab := h.kept_ne ha hb
        exact (update_of_ne hai _ _).trans (update_of_ne hab _ _)
      new := by
        have hbi : b ≠ c.sin.din.indirect := fun he => hib.2.2.1 (he ▸ hb)
        exact (update_of_ne hbi _ _).trans (update_self _ _ _) }

theorem grown_newIndex (h : Mapped held c) (hge : SFS_NDIRECT ≤ c.blocks)
    (hlt : c.blocks < MAX_MAPPED) (h0 : c.sin.din.indirect = 0) (he : ent ∈ c.free)
    (hb : b ∈ (c.take ent).free) :
    Grown held c (set_blocks (c.blocks + 1)
      (set_indirect ent ((c.take ent).link ent (c.blocks - SFS_NDIRECT) b))) b := by
  set t := set_blocks (c.blocks + 1)
    (set_indirect ent ((c.take ent).link ent (c.blocks - SFS_NDIRECT) b))
  have hfe := h.free.take he
  have hfree := hfe.1.take hb
  have heb := h.free_block he
  have hbc : b ≠ ent ∧ b ∈ c.free := by
    rw [hfe.2.1] at hb
    exact Finset.mem_erase.1 hb
  have hfb := h.free_block hbc.2
  have hmap : ∀ i, i < MAX_MAPPED → bmap t i = if i = c.blocks then b else bmap c i := by
    intro i _
    by_cases hi : i < SFS_NDIRECT
    · rw [if_neg (by omega)]
      simp [bmap, t, set_blocks, set_indirect, Call.link, Call.setDisk, Call.take, hi]
    · have hk : (i - SFS_NDIRECT = c.blocks - SFS_NDIRECT) ↔ i = c.blocks := by omega
      simp only [bmap, t, set_blocks, set_indirect, Call.link, Call.setDisk, Call.take, if_neg hi,
        if_neg heb.1, if_pos h0, update_self]
      rw [entry_patch h.free.narrow hfb.2.1, leAt_zero]
      simp only [hk]
  have hl : layout t = [ent] ++ ((List.range c.blocks).map (bmap c) ++ [b]) := by
    have hi : indexBlock t = [ent] := if_neg heb.1
    rw [← hi]
    exact layout_grown rfl hlt hmap
  have hlc : layout c = (List.range c.blocks).map (bmap c) := by
    have hi : indexBlock c = [] := if_pos h0
    rw [layout, hi, List.nil_append]
  have hft : t.free = (c.free.erase ent).erase b := by
    rw [← hfe.2.1]
    exact hfree.2.1
  have hledger : Ledger (· < c.sfs.super.blocks) held (· ∈ t.free) (layout t) := by
    have h1 : Ledger (· < c.sfs.super.blocks) held (· ∈ c.free.erase ent) (ent :: layout c) := by
      apply h.ledger.take he heb.2.1
      intro a
      rw [Finset.mem_erase]
      exact and_comm
    have h2 : Ledger (· < c.sfs.super.blocks) held (· ∈ t.free) (b :: ent :: layout c) := by
      apply h1.take (Finset.mem_erase.2 hbc) hfb.2.1
      intro a
      rw [hft, Finset.mem_erase]
      exact and_comm
    apply h2.perm
    rw [hl, hlc, ← List.append_assoc]
    exact @List.perm_append_comm _ [b] (ent :: (List.range c.blocks).map (bmap c))
  exact
    { mapped := h.grown hlt (hfree.1.congr rfl rfl) hledger rfl rfl hmap
      ino := rfl
      size := rfl
      type := rfl
      blocks := rfl
      bmap := hmap
      indirect := ⟨fun hi => absurd hi heb.1, fun hi => absurd hi.2 (Nat.not_lt.2 hge)⟩
      dirty := ⟨fun _ => Or.inr (Or.inr h0), fun _ => rfl⟩
      super := rfl
      free := by
        have hcard := Finset.card_erase_add_one he
        have hcard' := Finset.card_erase_add_one (Finset.mem_erase.2 hbc)
        rw [need_two h0 hge, hft]
        omega
      kept := by
        intro a ha
        have hae := h.kept_ne ha he
        have hab := h.kept_ne ha hbc.2
        have hd : t.sfs.disk a = (c.take ent).sfs.disk a :=
          (update_of_ne hae _ _).trans (update_of_ne hab _ _)
        exact hd.trans (update_of_ne hae _ _)
      new := (update_of_ne hbc.1 _ _).trans (update_self _ _ _) }

end

/-! ## Loading a block -/

section

variable {held : Nat → Prop} {c : Call} {dop_io : Access → Int} {garbage i : Nat} {X : Prop}

/-- Only a block past the direct ones needs the device. -/
theorem wp_get_old (h : Mapped held c) (hi : i < c.blocks) (create : Bool) :
    Wp (sfs_bmap_get_nolock dop_io garbage i create) (fun b t => t = c ∧ b = bmap c i)
      (fun e t => t = c ∧ e = dop_io .index ∧ e ≠ 0) X c := by
  have hb := h.block (mem_layout hi)
  have hmapped : ∀ b, b = bmap c i →
      Wp (mapped b) (fun b t => t = c ∧ b = bmap c i)
        (fun e t => t = c ∧ e = dop_io .index ∧ e ≠ 0) X c := by
    rintro _ rfl
    unfold mapped
    rw [wp_ite, if_neg hb.1, wp_bind]
    exact wp_assert_inuse h.free hb.1 hb.2.1 hb.2.2.1 ⟨rfl, rfl⟩
  have hlt := Nat.lt_of_lt_of_le hi h.bound
  unfold sfs_bmap_get_nolock
  simp only [wp_bind, wp_get, wp_ite]
  by_cases hd : i < SFS_NDIRECT
  · have hm : c.sin.din.direct i = bmap c i := (if_pos hd).symm
    rw [if_pos hd, if_neg (fun hn => hb.1 (hm ▸ hn.1))]
    exact hmapped _ hm
  · have hind := h.indirect_ne (by omega)
    have hib := h.block (indirect_mem_layout hind)
    have hk : i - SFS_NDIRECT < SFS_BLK_NENTRY := by
      unfold MAX_MAPPED at hlt
      omega
    have hm : bmap c i = leNat (slice (c.sfs.disk c.sin.din.indirect) ((i - SFS_NDIRECT) * 4) 4) := by
      unfold bmap
      rw [if_neg hd, if_neg hind]
      rfl
    have hoff : (i - SFS_NDIRECT) * 4 < SFS_BLKSIZE ∧ (i - SFS_NDIRECT) * 4 + 4 ≤ SFS_BLKSIZE := by
      unfold SFS_BLKSIZE
      unfold SFS_BLK_NENTRY at hk
      omega
    rw [if_neg hd, if_pos hk]
    unfold sfs_bmap_get_sub_nolock
    rw [wp_bind, wp_check, if_pos hk, wp_ite, if_pos hind, wp_bind]
    apply wp_rbuf ⟨hib.1, hib.2.1⟩ hoff
    · intro _
      rw [wp_ite, if_pos (Or.inl (hm ▸ hb.1)), wp_pure, if_neg (fun hn => hn rfl)]
      exact hmapped _ hm.symm
    · exact fun hr => ⟨rfl, rfl, hr⟩

theorem wp_load_old (h : Mapped held c) (hi : i < c.blocks) :
    Wp (sfs_bmap_load_nolock dop_io garbage i) (fun b t => t = c ∧ b = bmap c i)
      (fun e t => t = c ∧ e = dop_io .index ∧ e ≠ 0) X c := by
  have hb := h.block (mem_layout hi)
  have hne : (i == c.blocks) = false := beq_false_of_ne (Nat.ne_of_lt hi)
  unfold sfs_bmap_load_nolock
  simp only [wp_bind, wp_get, wp_check]
  rw [if_pos (Nat.le_of_lt hi), hne]
  apply Wp.mono (wp_get_old h hi false) _ (fun _ _ he => he) id
  rintro _ _ ⟨rfl, rfl⟩
  apply wp_assert_inuse h.free hb.1 hb.2.1 hb.2.2.1
  simp

/-- The end of `sfs_bmap_load_nolock`: the block that was found or made is in use. -/
theorem wp_loaded {t : Call} {b : Nat} {Q : Nat → Call → Prop} {E : Int → Call → Prop}
    (hg : Grown held c (set_blocks (c.blocks + 1) t) b) (hsin : t.blocks = c.blocks)
    (hlt : c.blocks < MAX_MAPPED) (hq : Q b (set_blocks (c.blocks + 1) t)) :
    Wp (mapped b) (fun b t => Wp (assert_inuse b) (fun _ t =>
      Wp (modify fun c => set_blocks (c.blocks + 1) c) (fun _ t => Q b t) E X t) E X t) E X t := by
  have hb : b ∈ layout (set_blocks (c.blocks + 1) t) := by
    have hm := hg.bmap c.blocks hlt
    rw [if_pos rfl] at hm
    rw [← hm]
    apply mem_layout
    exact Nat.lt_succ_self c.blocks
  have hblk := hg.mapped.block hb
  have hfree : FreeOk t := hg.mapped.free.congr rfl rfl
  have hinuse : ∀ {Q : Unit → Call → Prop}, Q () t → Wp (assert_inuse b) Q E X t := fun hq =>
    wp_assert_inuse hfree hblk.1 hblk.2.1 hblk.2.2.1 hq
  unfold mapped
  rw [wp_ite, if_neg hblk.1, wp_bind]
  apply hinuse
  rw [wp_pure]
  apply hinuse
  rw [wp_modify, hsin]
  exact hq

/-- A block more at the end of the file. Where no clearing fails, a failure leaves all as it
was. -/
theorem wp_load_new (h : Mapped held c) (hlt : c.blocks < MAX_MAPPED) (hclear : dop_io .clear = 0)
    (hclear' : dop_io .clearIndex = 0) :
    Wp (sfs_bmap_load_nolock dop_io garbage c.blocks)
      (fun b t => Grown held c t b ∧
        (SFS_NDIRECT ≤ c.blocks → c.sin.din.indirect ≠ 0 → LinkAnswers dop_io))
      (fun _ t => Untouched c t ∧
        (c.free.card < need c (c.blocks + 1) ∨ ∃ a, dop_io a ≠ 0)) X c := by
  have h0 : bmap c c.blocks = 0 := h.none _ (Nat.le_refl _) hlt
  unfold sfs_bmap_load_nolock sfs_bmap_get_nolock
  simp only [wp_bind, wp_get, wp_check, wp_ite]
  rw [if_pos (Nat.le_refl _), beq_self_eq_true]
  by_cases hd : c.blocks < SFS_NDIRECT
  · have hm : c.sin.din.direct c.blocks = 0 := by
      rw [← h0]
      exact (if_pos hd).symm
    rw [if_pos hd, if_pos ⟨hm, rfl⟩, hclear]
    apply Wp.mono (wp_block_alloc h.free) _ _ id
    · rintro b _ ⟨hb, rfl⟩
      rw [wp_modify]
      have hg := grown_direct h hd hb
      simp only [if_true]
      exact wp_loaded hg rfl hlt ⟨hg, fun hge => absurd hd (Nat.not_lt.2 hge)⟩
    · rintro e _ ⟨rfl, hemp⟩
      refine ⟨Untouched.refl _, Or.inl ?_⟩
      rw [need_one fun _ => hd, hemp, Finset.card_empty]
      exact Nat.one_pos
  · have hk : c.blocks - SFS_NDIRECT < SFS_BLK_NENTRY := by
      unfold MAX_MAPPED at hlt
      omega
    have hneed : need c (c.blocks + 1) = entryNeed c.sin.din.indirect := by
      unfold entryNeed
      by_cases hi : c.sin.din.indirect = 0
      · rw [need_two hi (Nat.not_lt.1 hd), if_pos hi]
      · rw [need_one fun hn => absurd hn hi, if_neg hi]
    rw [if_neg hd, if_pos hk, hneed]
    apply Wp.mono (wp_sub_new h.free hclear hclear' hk _) _ (fun _ _ he => he) id
    · intro hi
      have hib := h.block (indirect_mem_layout hi)
      refine ⟨hib.2.1, hib.2.2.1, ?_⟩
      rw [← h0]
      unfold bmap
      rw [if_neg hd, if_neg hi]
    · rintro ⟨ent, b⟩ t ⟨hans, u, hu, hb, rfl⟩
      rcases hu with ⟨hi, rfl, rfl⟩ | ⟨hi, he, rfl⟩
      · have hg := grown_index h (Nat.not_lt.1 hd) hlt hi hb
        rw [if_neg (fun hn => hn rfl)]
        simp only [if_true]
        exact wp_loaded hg rfl hlt ⟨hg, fun _ => hans⟩
      · have hg := grown_newIndex h (Nat.not_lt.1 hd) hlt hi he hb
        have hne : ent ≠ c.sin.din.indirect := by
          rw [hi]
          exact (h.free_block he).1
        rw [if_pos hne, if_pos hi, wp_modify]
        simp only [if_true]
        exact wp_loaded hg rfl hlt ⟨hg, fun _ => hans⟩

end

/-! ## Dropping the last block -/

/-- The last block of the file is free again. -/
structure Shrunk (held : Nat → Prop) (c t : Call) : Prop where
  mapped : Mapped held t
  ino : t.sin.ino = c.sin.ino
  size : t.sin.din.size = c.sin.din.size
  type : t.sin.din.type = c.sin.din.type
  blocks : t.blocks + 1 = c.blocks
  bmap : ∀ i, i < t.blocks → bmap t i = bmap c i
  dirty : t.sin.dirty = true
  super : t.sfs.super.blocks = c.sfs.super.blocks
  free : t.free = insert (nehcpu.kernel.fs.bmap c t.blocks) c.free
  kept : ∀ a, held a ∨ (∃ i, i < t.blocks ∧ nehcpu.kernel.fs.bmap c i = a) →
    t.sfs.disk a = c.sfs.disk a

section

variable {held : Nat → Prop} {c t : Call} {n : Nat}

/-- What is to be shown of a state where the last block of the map is given back. -/
theorem Mapped.shrunk (h : Mapped held c) (hn : c.blocks = n + 1) (hfree : FreeOk t)
    (hft : t.free = insert (bmap c n) c.free) (hbl : t.blocks = n)
    (hind : t.sin.din.indirect = c.sin.din.indirect) (hino : t.sin.ino = c.sin.ino)
    (hsuper : t.sfs.super.blocks = c.sfs.super.blocks)
    (hmap : ∀ i, i < MAX_MAPPED → bmap t i = if i = n then 0 else bmap c i) : Mapped held t := by
  have hmax := h.bound
  have hl : layout c = layout t ++ [bmap c n] := by
    unfold layout indexBlock
    rw [hind, hn, hbl, List.range_succ, List.map_append, List.map_singleton, ← List.append_assoc]
    congr 2
    apply List.map_congr_left
    intro i hi
    have hi := List.mem_range.1 hi
    rw [hmap i (by omega), if_neg (by omega)]
  refine ⟨hfree, ?_, by omega, ?_, h.zero, hino ▸ h.own⟩
  · have hp : (layout c).Perm (bmap c n :: layout t) := by
      rw [hl]
      exact List.perm_append_comm
    rw [hsuper]
    apply (h.ledger.perm hp).give
    intro a
    rw [hft, Finset.mem_insert]
    exact or_comm
  · intro i hi hi'
    rw [hmap i hi']
    split
    · rfl
    · exact h.none i (by omega) hi'

theorem shrunk_direct (h : Mapped held c) (hn : c.blocks = n + 1) (hd : n < SFS_NDIRECT) :
    Shrunk held c (set_dirty (set_blocks n (set_direct n 0 (c.give (bmap c n))))) := by
  set t := set_dirty (set_blocks n (set_direct n 0 (c.give (bmap c n))))
  have hlt : n < c.blocks := by omega
  have hb := h.block (mem_layout hlt)
  have hfree := h.free.give hb.2.2.1 hb.1 hb.2.1
  have hmap : ∀ i, i < MAX_MAPPED → bmap t i = if i = n then 0 else bmap c i := by
    intro i _
    by_cases hi : i < SFS_NDIRECT
    · by_cases he : i = n
      · subst he
        simp [bmap, t, set_dirty, set_blocks, set_direct, hi, update_self]
      · simp [bmap, t, set_dirty, set_blocks, set_direct, Call.give, hi, he, update_of_ne]
    · rw [if_neg (by omega)]
      simp [bmap, t, set_dirty, set_blocks, set_direct, Call.give, hi]
  exact
    { mapped := h.shrunk hn (hfree.1.congr rfl rfl) hfree.2 rfl rfl rfl rfl hmap
      ino := rfl
      size := rfl
      type := rfl
      blocks := hn.symm
      bmap := by
        intro i hi
        have hi : i < n := hi
        have hmax := h.bound
        rw [hmap i (by omega), if_neg (by omega)]
      dirty := rfl
      super := rfl
      free := hfree.2
      kept := fun _ _ => rfl }

theorem shrunk_index (h : Mapped held c) (hn : c.blocks = n + 1) (hd : SFS_NDIRECT ≤ n) :
    Shrunk held c (set_dirty (set_blocks n ((c.setDisk c.sin.din.indirect
      (patch (c.sfs.disk c.sin.din.indirect) ((n - SFS_NDIRECT) * 4) (leBytes 4 0))).give
        (bmap c n)))) := by
  set u := c.setDisk c.sin.din.indirect
    (patch (c.sfs.disk c.sin.din.indirect) ((n - SFS_NDIRECT) * 4) (leBytes 4 0))
  set t := set_dirty (set_blocks n (u.give (bmap c n)))
  have hlt : n < c.blocks := by omega
  have hb := h.block (mem_layout hlt)
  have h0 := h.indirect_ne (by omega)
  have hib := h.block (indirect_mem_layout h0)
  have hu : FreeOk u := h.free.congr rfl rfl
  have hfree := hu.give hb.2.2.1 hb.1 hb.2.1
  have hmap : ∀ i, i < MAX_MAPPED → bmap t i = if i = n then 0 else bmap c i := by
    intro i _
    by_cases hi : i < SFS_NDIRECT
    · rw [if_neg (by omega)]
      simp [bmap, t, u, set_dirty, set_blocks, Call.setDisk, Call.give, hi]
    · have he : (i - SFS_NDIRECT = n - SFS_NDIRECT) ↔ i = n := by omega
      simp only [bmap, t, u, set_dirty, set_blocks, Call.setDisk, Call.give, if_neg hi, if_neg h0,
        update_self]
      rw [entry_patch h.free.narrow (Nat.lt_of_le_of_lt (Nat.zero_le _) hb.2.1)]
      simp only [he]
  exact
    { mapped := h.shrunk hn (hfree.1.congr rfl rfl) hfree.2 rfl rfl rfl rfl hmap
      ino := rfl
      size := rfl
      type := rfl
      blocks := hn.symm
      bmap := by
        intro i hi
        have hi : i < n := hi
        have hmax := h.bound
        rw [hmap i (by omega), if_neg (by omega)]
      dirty := rfl
      super := rfl
      free := hfree.2
      kept := by
        intro a ha
        apply update_of_ne
        apply h.kept_ne_indirect h0
        apply ha.imp_right
        rintro ⟨i, hi, he⟩
        exact ⟨i, Nat.lt_trans hi hlt, he⟩ }

/-- A failure leaves all as it was. -/
theorem wp_truncate {dop_io : Nat → Access → Int} {X : Prop} (h : Mapped held c)
    (h0 : c.blocks ≠ 0) :
    Wp (sfs_bmap_truncate_nolock dop_io) (fun _ t => Shrunk held c t)
      (fun _ t => t = c ∧ ∃ a, dop_io (c.blocks - 1) a ≠ 0) X c := by
  obtain ⟨n, hn⟩ := Nat.exists_eq_succ_of_ne_zero h0
  have hlt : n < c.blocks := by omega
  have hb := h.block (mem_layout hlt)
  have hmax := h.bound
  have hpred : c.blocks - 1 = n := by omega
  unfold sfs_bmap_truncate_nolock sfs_bmap_free_nolock
  simp only [wp_bind, wp_get, wp_check, wp_ite, wp_pure, wp_modify, hpred]
  rw [if_pos h0]
  by_cases hd : n < SFS_NDIRECT
  · have hm : c.sin.din.direct n = bmap c n := (if_pos hd).symm
    rw [if_pos hd, hm, if_pos hb.1]
    apply wp_block_free h.free hb.1 hb.2.1 hb.2.2.1
    have hbl : (set_direct n 0 (c.give (bmap c n))).sin.din.blocks - 1 = n := hpred
    rw [hbl]
    exact shrunk_direct h hn hd
  · have hi := h.indirect_ne (by omega)
    have hib := h.block (indirect_mem_layout hi)
    have hk : n - SFS_NDIRECT < SFS_BLK_NENTRY := by
      unfold MAX_MAPPED at hmax
      omega
    have hoff : (n - SFS_NDIRECT) * 4 < SFS_BLKSIZE ∧ (n - SFS_NDIRECT) * 4 + 4 ≤ SFS_BLKSIZE := by
      unfold SFS_BLKSIZE
      unfold SFS_BLK_NENTRY at hk
      omega
    have hm : leNat (slice (c.sfs.disk c.sin.din.indirect) ((n - SFS_NDIRECT) * 4) 4) =
        bmap c n := by
      unfold bmap
      rw [if_neg hd, if_neg hi]
      rfl
    rw [if_neg hd, if_pos hk, if_pos hi]
    unfold sfs_bmap_free_sub_nolock
    rw [wp_bind]
    -- the assertion on the indirect block is the first half of `assert_inuse`
    have hin : Wp (sfs_block_inuse c.sin.din.indirect) (fun inuse t => t = c ∧ inuse = true)
        (fun _ _ => False) X c := by
      have hn := Nat.lt_of_lt_of_le hib.2.1 h.free.fits
      have hbit : c.sfs.freemap.bit c.sin.din.indirect = false := by
        simpa using fun hh => hib.2.2.1 ((c.mem_free _).2 ⟨hn, hh⟩)
      unfold sfs_block_inuse bitmap_test
      simp only [wp_bind, wp_get, wp_check, wp_pure, bitmap.test_eq, hbit]
      rw [if_pos ⟨hib.1, hib.2.1⟩, if_pos hn]
      exact ⟨trivial, rfl⟩
    apply Wp.mono hin _ (fun _ _ hf => hf.elim) id
    intro inuse t ht
    rw [ht.1, ht.2, wp_bind, wp_check, if_pos ⟨rfl, hk⟩, wp_bind]
    apply wp_rbuf ⟨hib.1, hib.2.1⟩ hoff
    · intro _
      rw [hm, wp_ite, if_pos hb.1, wp_bind]
      apply wp_wbuf ⟨hib.1, hib.2.1⟩ (by rw [leBytes_length]; exact hoff)
      · intro _ _
        have hu : FreeOk (c.setDisk c.sin.din.indirect (patch (c.sfs.disk c.sin.din.indirect)
            ((n - SFS_NDIRECT) * 4) (leBytes 4 0))) := h.free.congr rfl rfl
        apply wp_block_free hu hb.1 hb.2.1 hb.2.2.1
        have hs := shrunk_index h hn (Nat.not_lt.1 hd)
        rw [← hpred] at hs
        exact hpred ▸ hs
      · exact fun _ hr => ⟨rfl, hr.elim (fun hr => ⟨_, hr⟩) fun hr => ⟨_, hr⟩⟩
    · exact fun hr => ⟨rfl, _, hr⟩

end

end nehcpu.kernel.fs
