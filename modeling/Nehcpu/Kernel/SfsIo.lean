-- A transfer goes through the file piece by piece: a part of the first block, the blocks between and
-- a part of the last one. What one piece does, and the rule for the whole transfer.
import Nehcpu.Kernel.SfsMap

namespace nehcpu.kernel.fs

open Function nehcpu.command nehcpu.command.Cmd nehcpu.buffer

/-- The file as one array of bytes, zero past its last block. -/
def cell (c : Call) (p : Nat) : Byte :=
  if p / SFS_BLKSIZE < c.blocks then c.sfs.disk (bmap c (p / SFS_BLKSIZE)) (p % SFS_BLKSIZE) else 0

theorem cell_at {c : Call} {i k : Nat} (hk : k < SFS_BLKSIZE) :
    cell c (i * SFS_BLKSIZE + k) = if i < c.blocks then c.sfs.disk (bmap c i) k else 0 := by
  have hd : (i * SFS_BLKSIZE + k) / SFS_BLKSIZE = i := by
    rw [Nat.mul_comm, Nat.mul_add_div (by decide), Nat.div_eq_of_lt hk, Nat.add_zero]
  have hm : (i * SFS_BLKSIZE + k) % SFS_BLKSIZE = k := by
    rw [Nat.mul_comm, Nat.mul_add_mod, Nat.mod_eq_of_lt hk]
  rw [cell, hd, hm]

/-- Two files are the same bytes if they are so block by block. -/
theorem cell_ext {f g : Nat → Byte}
    (h : ∀ i k, k < SFS_BLKSIZE → f (i * SFS_BLKSIZE + k) = g (i * SFS_BLKSIZE + k)) : f = g := by
  funext p
  have hp := h (p / SFS_BLKSIZE) (p % SFS_BLKSIZE) (Nat.mod_lt _ (by decide))
  rw [Nat.div_add_mod'] at hp
  exact hp

section

variable {held : Nat → Prop} {c t : Call} {b i : Nat}

theorem Untouched.cell_eq (hu : Untouched c t) (h : Mapped held c) : cell t = cell c := by
  funext p
  unfold cell Call.blocks
  rw [hu.sin, hu.bmap_eq h]
  split
  · rw [hu.disk _ (h.block (mem_layout (by assumption))).2.2.1]
  · rfl

/-- The new block is zero, as the bytes past the end were. -/
theorem Grown.cell_eq (hg : Grown held c t b) (hlt : c.blocks < MAX_MAPPED) : cell t = cell c := by
  apply cell_ext
  intro i k hk
  rw [cell_at hk, cell_at hk, hg.blocks]
  by_cases hi : i < c.blocks
  · rw [if_pos (by omega), if_pos hi, hg.bmap i (by omega), if_neg (by omega),
      hg.kept _ (Or.inr ⟨i, hi, rfl⟩)]
  · rw [if_neg hi]
    by_cases he : i = c.blocks
    · rw [if_pos (by omega), hg.bmap i (by omega), if_pos he, hg.new]
      rfl
    · rw [if_neg (by omega)]

theorem bmap_setDisk (buf : Buffer) (hne : c.sin.din.indirect ≠ b) :
    bmap (c.setDisk b buf) = bmap c := by
  have hd : (c.setDisk b buf).sfs.disk c.sin.din.indirect = c.sfs.disk c.sin.din.indirect :=
    update_of_ne hne _ _
  funext j
  unfold bmap
  rw [← hd]
  rfl

/-- A block of the file is written. -/
theorem Mapped.write (h : Mapped held t) (hi : i < t.blocks) (buf : Buffer) :
    Mapped held (t.setDisk (bmap t i) buf) ∧
      ∀ j k, k < SFS_BLKSIZE → cell (t.setDisk (bmap t i) buf) (j * SFS_BLKSIZE + k) =
        if j = i then buf k else cell t (j * SFS_BLKSIZE + k) := by
  have hmap := bmap_setDisk buf (h.ne_indirect hi).symm
  have hl : layout (t.setDisk (bmap t i) buf) = layout t := by
    unfold layout
    rw [hmap]
    rfl
  constructor
  · refine ⟨h.free.congr rfl rfl, ?_, h.bound, ?_, h.zero, h.own⟩
    · rw [hl]
      exact h.ledger
    · rw [hmap]
      exact h.none
  · intro j k hk
    have hbl : (t.setDisk (bmap t i) buf).blocks = t.blocks := rfl
    rw [cell_at hk, cell_at hk, hmap, hbl]
    by_cases he : j = i
    · subst he
      have hd : (t.setDisk (bmap t j) buf).sfs.disk (bmap t j) = buf := update_self _ _ _
      rw [if_pos hi, if_pos rfl, hd]
    · rw [if_neg he]
      by_cases hj : j < t.blocks
      · have hb : bmap t j ≠ bmap t i := fun hb => he (h.inj hj hi hb)
        have hd : (t.setDisk (bmap t i) buf).sfs.disk (bmap t j) = t.sfs.disk (bmap t j) :=
          update_of_ne hb _ _
        rw [if_pos hj, if_pos hj, hd]
      · rw [if_neg hj, if_neg hj]

end

/-! ## Loading the block of a piece -/

/-- The block at index `i` is there in `t`; it is new if `i` was the end of the file. -/
structure Reached (held : Nat → Prop) (i : Nat) (c t : Call) : Prop where
  mapped : Mapped held t
  lt : i < t.blocks
  ino : t.sin.ino = c.sin.ino
  size : t.sin.din.size = c.sin.din.size
  type : t.sin.din.type = c.sin.din.type
  super : t.sfs.super.blocks = c.sfs.super.blocks
  blocks : t.blocks = max c.blocks (i + 1)
  same : i < c.blocks → t.sin = c.sin
  dirty : i = c.blocks → (t.sin.dirty = true ↔
    c.sin.dirty = true ∨ c.blocks < SFS_NDIRECT ∨ c.sin.din.indirect = 0)
  need : ∀ n, i < n → t.free.card + need c n = c.free.card + nehcpu.kernel.fs.need t n
  kept : ∀ a, held a → t.sfs.disk a = c.sfs.disk a

/-- `sfs_bmap_load_nolock` has found the block, and no byte of the file is changed. -/
structure Loaded (held : Nat → Prop) (dop_io : Access → Int) (i : Nat) (c t : Call) (b : Nat) :
    Prop extends Reached held i c t where
  block : bmap t i = b
  cells : cell t = cell c
  answers : i = c.blocks → SFS_NDIRECT ≤ c.blocks → c.sin.din.indirect ≠ 0 → LinkAnswers dop_io

section

variable {held : Nat → Prop} {c : Call} {dop_io : Access → Int} {garbage i : Nat} {X : Prop}

theorem wp_load (h : Mapped held c) (hi : i ≤ c.blocks) (hlt : i < MAX_MAPPED)
    (hclear : i = c.blocks → dop_io .clear = 0 ∧ dop_io .clearIndex = 0) :
    Wp (sfs_bmap_load_nolock dop_io garbage i) (fun b t => Loaded held dop_io i c t b)
      (fun _ t => Untouched c t ∧ (c.free.card < need c (i + 1) ∨ ∃ a, dop_io a ≠ 0)) X c := by
  rcases Nat.lt_or_eq_of_le hi with hi | rfl
  · apply Wp.mono (wp_load_old h hi) _ _ id
    · rintro _ _ ⟨rfl, rfl⟩
      exact
        { mapped := h
          block := rfl
          lt := hi
          ino := rfl
          size := rfl
          type := rfl
          super := rfl
          blocks := by omega
          same := fun _ => rfl
          dirty := fun he => absurd he (Nat.ne_of_lt hi)
          need := fun _ _ => rfl
          kept := fun _ _ => rfl
          cells := rfl
          answers := fun he => absurd he (Nat.ne_of_lt hi) }
    · rintro _ _ ⟨rfl, rfl, hr⟩
      exact ⟨Untouched.refl _, Or.inr ⟨_, hr⟩⟩
  · have hc := hclear rfl
    apply Wp.mono (wp_load_new h hlt hc.1 hc.2) _ (fun _ _ he => he) id
    rintro b t ⟨hg, hans⟩
    exact
      { mapped := hg.mapped
        block := by
          have hm := hg.bmap c.blocks hlt
          rwa [if_pos rfl] at hm
        lt := by
          rw [hg.blocks]
          exact Nat.lt_succ_self _
        ino := hg.ino
        size := hg.size
        type := hg.type
        super := hg.super
        blocks := by
          rw [hg.blocks]
          omega
        same := fun hn => absurd hn (Nat.lt_irrefl _)
        dirty := fun _ => hg.dirty
        need := by
          intro n hn
          have hf := hg.free
          have hbl := hg.blocks
          have hind := hg.indirect
          unfold need at hf ⊢
          by_cases h0 : c.sin.din.indirect = 0
          · by_cases hd : c.blocks < SFS_NDIRECT
            · have ht : t.sin.din.indirect = 0 := hind.2 ⟨h0, hd⟩
              simp only [h0, ht, true_and] at hf ⊢
              split at hf <;> split <;> omega
            · have ht : ¬ t.sin.din.indirect = 0 := fun ht => hd (hind.1 ht).2
              simp only [h0, ht, true_and, false_and, if_false] at hf ⊢
              split at hf <;> split <;> omega
          · have ht : ¬ t.sin.din.indirect = 0 := fun ht => h0 (hind.1 ht).1
            simp only [h0, ht, false_and, if_false] at hf ⊢
            omega
        kept := fun a ha => hg.kept a (Or.inl ha)
        cells := hg.cell_eq hlt
        answers := fun _ => hans }

end

/-! ## One piece -/

/-- The pieces that a transfer is made of, with the block, the offset in it and the length. -/
inductive Piece (env : Around) (write : Bool) (buf : List Byte) :
    SfsM (List Byte) → Nat → Nat → Nat → Prop
  | part (i off size : Nat) : Piece env write buf (io_part env write buf i off size) i off size
  | whole (i : Nat) : Piece env write buf (io_whole env write buf i) i 0 SFS_BLKSIZE

/-- The bytes `bs` went between the buffer and the place `p` of the file. -/
def Moved (write : Bool) (buf : List Byte) (p size : Nat) (c t : Call) (bs : List Byte) : Prop :=
  if write then bs = buf.take size ∧ cell t = patch (cell c) p bs
  else bs = slice (cell c) p size ∧ cell t = cell c

/-- The block of the piece was not reached, or its data were not moved. -/
def Stuck (held : Nat → Prop) (env : Around) (i : Nat) (c t : Call) : Prop :=
  (Untouched c t ∨ ((env.dop_io i .dataRead ≠ 0 ∨ env.dop_io i .dataWrite ≠ 0) ∧
    ∃ b, Loaded held (env.dop_io i) i c t b)) ∧
  (c.free.card < need c (i + 1) ∨ ∃ a, env.dop_io i a ≠ 0)

section

variable {held : Nat → Prop} {c t : Call} {env : Around} {write : Bool} {buf : List Byte}
  {m : SfsM (List Byte)} {i off size b : Nat} {X : Prop}

theorem Loaded.stuck (h : Loaded held (env.dop_io i) i c t b)
    (hd : env.dop_io i .dataRead ≠ 0 ∨ env.dop_io i .dataWrite ≠ 0) : Stuck held env i c t :=
  ⟨Or.inr ⟨hd, b, h⟩, Or.inr (hd.elim (fun hr => ⟨_, hr⟩) fun hr => ⟨_, hr⟩)⟩

/-- What the block holds after a write makes the file the old one with the bytes in place. -/
theorem Loaded.wrote (h : Loaded held (env.dop_io i) i c t b) (off : Nat) (bs : List Byte) (new : Buffer)
    (hfit : off + bs.length ≤ SFS_BLKSIZE)
    (hnew : ∀ k, k < SFS_BLKSIZE → new k = patch (t.sfs.disk b) off bs k) :
    Reached held i c (t.setDisk b new) ∧
      cell (t.setDisk b new) = patch (cell c) (i * SFS_BLKSIZE + off) bs := by
  have hb := h.mapped.block (mem_layout h.lt)
  rw [h.block] at hb
  have hw := h.mapped.write h.lt new
  rw [h.block] at hw
  constructor
  · exact
      { mapped := hw.1
        lt := h.lt
        ino := h.ino
        size := h.size
        type := h.type
        super := h.super
        blocks := h.blocks
        same := h.same
        dirty := h.dirty
        need := h.need
        kept := by
          intro a ha
          have hne : a ≠ b := fun he => hb.2.2.2 (he ▸ ha)
          have hd : (t.setDisk b new).sfs.disk a = t.sfs.disk a := update_of_ne hne _ _
          rw [hd]
          exact h.kept a ha }
  · apply cell_ext
    intro j k hk
    rw [hw.2 j k hk, ← h.cells]
    by_cases he : j = i
    · subst he
      rw [if_pos rfl, hnew k hk]
      by_cases hin : off ≤ k ∧ k < off + bs.length
      · rw [patch_in _ _ _ hin.1 hin.2, patch_in _ _ _ (by omega) (by omega)]
        congr 1
        omega
      · rw [patch_out _ _ _ (by omega), patch_out _ _ _ (by omega), cell_at hk, if_pos h.lt,
          h.block]
    · rw [if_neg he]
      apply (patch_out _ _ _ _).symm
      -- another block lies before the one that is written, or after it
      rcases Nat.lt_or_gt_of_ne he with hlt | hgt
      · left
        have hm := Nat.mul_le_mul_right SFS_BLKSIZE (Nat.succ_le_of_lt hlt)
        rw [Nat.succ_mul] at hm
        omega
      · right
        have hm := Nat.mul_le_mul_right SFS_BLKSIZE (Nat.succ_le_of_lt hgt)
        rw [Nat.succ_mul] at hm
        omega

theorem Loaded.read (h : Loaded held (env.dop_io i) i c t b) (hfit : off + size ≤ SFS_BLKSIZE) :
    slice (t.sfs.disk b) off size = slice (cell c) (i * SFS_BLKSIZE + off) size := by
  apply slice_congr
  intro k hk
  rw [← h.cells, Nat.add_assoc, cell_at (by omega), if_pos h.lt, h.block]

theorem wp_piece (h : Mapped held c) (hp : Piece env write buf m i off size) (hi : i ≤ c.blocks)
    (hlt : i < MAX_MAPPED) (hsize : 0 < size) (hfit : off + size ≤ SFS_BLKSIZE)
    (hbuf : write = true → size ≤ buf.length)
    (hclear : i = c.blocks → env.dop_io i .clear = 0 ∧ env.dop_io i .clearIndex = 0) :
    Wp m (fun bs t => Reached held i c t ∧ bs.length = size ∧
        Moved write buf (i * SFS_BLKSIZE + off) size c t bs)
      (fun _ t => Stuck held env i c t) X c := by
  have hload : Wp (sfs_bmap_load_nolock (env.dop_io i) (env.ino i) i)
      (fun b t => Loaded held (env.dop_io i) i c t b) (fun _ t => Untouched c t ∧
        (c.free.card < need c (i + 1) ∨ ∃ a, env.dop_io i a ≠ 0)) X c := wp_load h hi hlt hclear
  have hfail : ∀ (e : Int) (t : Call), Untouched c t ∧
      (c.free.card < need c (i + 1) ∨ ∃ a, env.dop_io i a ≠ 0) → Stuck held env i c t :=
    fun _ t hu => ⟨Or.inl hu.1, hu.2⟩
  cases hp with
  | part i off size =>
    unfold io_part
    rw [wp_bind]
    apply Wp.mono hload _ hfail id
    intro b t hl
    have hb := hl.mapped.block (mem_layout hl.lt)
    rw [hl.block] at hb
    rw [wp_ite]
    cases write with
    | true =>
      have hlen : (buf.take size).length = size := by
        have hn := hbuf rfl
        simp
        omega
      rw [if_pos rfl, wp_bind]
      apply wp_wbuf ⟨hb.1, hb.2.1⟩ (by rw [hlen]; omega)
      · intro _ _
        have hw := hl.wrote off _ _ (by rw [hlen]; exact hfit) fun _ _ => rfl
        exact ⟨hw.1, hlen, rfl, hw.2⟩
      · exact fun _ hr => hl.stuck hr
    | false =>
      rw [if_neg Bool.false_ne_true]
      apply wp_rbuf ⟨hb.1, hb.2.1⟩ (by omega)
      · exact fun _ => ⟨hl.toReached, slice_length _ _ _, hl.read hfit, hl.cells⟩
      · exact fun hr => hl.stuck (Or.inl hr)
  | whole i =>
    unfold io_whole
    rw [wp_bind]
    apply Wp.mono hload _ hfail id
    intro b t hl
    have hb := hl.mapped.block (mem_layout hl.lt)
    rw [hl.block] at hb
    rw [wp_ite]
    cases write with
    | true =>
      have hlen : (buf.take SFS_BLKSIZE).length = SFS_BLKSIZE := by
        have hn := hbuf rfl
        simp
        omega
      rw [if_pos rfl]
      unfold sfs_wblock wblock_nolock
      simp only [wp_bind, wp_get, wp_check, wp_ite, wp_throw, wp_modify, wp_pure]
      rw [if_pos ⟨hb.1, hb.2.1⟩]
      split
      · exact hl.stuck (Or.inr (by assumption))
      · have hw := hl.wrote 0 _ (patch Buffer.zero 0 (buf.take SFS_BLKSIZE))
          (by rw [hlen]; exact hfit) (by
            intro k hk
            rw [patch_in _ _ _ (Nat.zero_le k) (by omega), patch_in _ _ _ (Nat.zero_le k) (by omega)])
        exact ⟨hw.1, hlen, rfl, hw.2⟩
    | false =>
      rw [if_neg Bool.false_ne_true]
      unfold sfs_rblock rblock_nolock
      simp only [wp_bind, wp_get, wp_check, wp_ite, wp_throw, wp_pure]
      rw [if_pos ⟨hb.1, hb.2.1⟩]
      split
      · exact hl.stuck (Or.inl (by assumption))
      · exact ⟨hl.toReached, slice_length _ _ _, hl.read hfit, hl.cells⟩

end

/-! ## The whole transfer -/

section

variable {env : Around} {write : Bool} {buf : List Byte} {offset endpos : Nat} {c : Call} {X : Prop}
  {I F : List Byte → Call → Prop} {E : Int → Call → Prop}

/-- A piece that goes on where `done` ends takes the invariant further, or ends the transfer. -/
def PieceStep (env : Around) (write : Bool) (buf : List Byte) (offset endpos : Nat) (X : Prop)
    (I F : List Byte → Call → Prop) : Prop :=
  ∀ m i off size done t, Piece env write (buf.drop done.length) m i off size →
    i * SFS_BLKSIZE + off = offset + done.length → 0 < size → off + size ≤ SFS_BLKSIZE →
    offset + done.length + size ≤ endpos → I done t →
    Wp m (fun bs u => bs.length = size ∧ I (done ++ bs) u) (fun _ u => F done u) X t

theorem wp_io_tail (hstep : PieceStep env write buf offset endpos X I F) {blkno : Nat}
    {done : List Byte} (hpos : blkno * SFS_BLKSIZE = offset + done.length)
    (hblk : blkno = endpos / SFS_BLKSIZE) (h : I done c) :
    Wp (io_tail env write (buf.drop done.length) blkno endpos done)
      (fun r t => r.1 = 0 ∧ r.2.length = endpos - offset ∧ I r.2 t ∨ F r.2 t) E X c := by
  have hend := Nat.div_add_mod' endpos SFS_BLKSIZE
  rw [← hblk] at hend
  unfold io_tail
  rw [wp_ite]
  split
  · have hpiece := hstep _ _ _ _ _ _ (Piece.part blkno 0 (endpos % SFS_BLKSIZE)) (by omega)
      (by omega) (by have hm := Nat.mod_lt endpos (show 0 < SFS_BLKSIZE by decide); omega)
      (by omega) h
    rw [wp_bind, wp_attempt]
    apply Wp.mono hpiece _ _ id
    · rintro bs t ⟨hlen, ht⟩
      exact Or.inl ⟨rfl, by rw [List.length_append]; omega, ht⟩
    · exact fun e t ht => Or.inr ht
  · have hlen : done.length = endpos - offset := by omega
    exact Or.inl ⟨rfl, hlen, h⟩

theorem wp_io_blocks (hstep : PieceStep env write buf offset endpos X I F) {nblks blkno : Nat}
    {done : List Byte} (hpos : blkno * SFS_BLKSIZE = offset + done.length)
    (hblk : blkno + nblks = endpos / SFS_BLKSIZE) (h : I done c) :
    Wp (io_blocks env write endpos nblks (buf.drop done.length) blkno done)
      (fun r t => r.1 = 0 ∧ r.2.length = endpos - offset ∧ I r.2 t ∨ F r.2 t) E X c := by
  induction nblks generalizing blkno done c with
  | zero => exact wp_io_tail hstep hpos hblk h
  | succ n ih =>
    have hend := Nat.div_add_mod' endpos SFS_BLKSIZE
    rw [← hblk, Nat.add_mul, Nat.succ_mul] at hend
    have hpiece := hstep _ _ _ _ _ _ (Piece.whole blkno) (by omega) (by decide) (by omega)
      (by omega) h
    rw [io_blocks, wp_bind, wp_attempt]
    apply Wp.mono hpiece _ (fun e t ht => Or.inr ht) id
    rintro bs t ⟨hlen, ht⟩
    have hdrop : (buf.drop done.length).drop SFS_BLKSIZE = buf.drop (done ++ bs).length := by
      rw [List.drop_drop, List.length_append, hlen]
    rw [hdrop]
    apply ih _ (by omega) ht
    rw [List.length_append, hlen, Nat.succ_mul]
    omega

/-- The rule of the transfer: what each piece takes further holds at the end, or the first piece
that fails has the last word. -/
theorem wp_io_body (hlt : offset < endpos) (h : I [] c)
    (hstep : PieceStep env write buf offset endpos X I F) :
    Wp (io_body env write buf offset endpos)
      (fun r t => r.1 = 0 ∧ r.2.length = endpos - offset ∧ I r.2 t ∨ F r.2 t) E X c := by
  have hoff := Nat.div_add_mod' offset SFS_BLKSIZE
  have hend := Nat.div_add_mod' endpos SFS_BLKSIZE
  have hmod := Nat.mod_lt offset (show 0 < SFS_BLKSIZE by decide)
  have hmod' := Nat.mod_lt endpos (show 0 < SFS_BLKSIZE by decide)
  have hle : offset / SFS_BLKSIZE ≤ endpos / SFS_BLKSIZE := Nat.div_le_div_right (Nat.le_of_lt hlt)
  unfold io_body
  rw [wp_ite]
  split
  · by_cases hn : endpos / SFS_BLKSIZE - offset / SFS_BLKSIZE = 0
    · -- the transfer ends in its first block
      have he : endpos / SFS_BLKSIZE = offset / SFS_BLKSIZE := by omega
      rw [he] at hend
      have hpiece := hstep _ _ _ _ [] _
        (Piece.part (offset / SFS_BLKSIZE) (offset % SFS_BLKSIZE) (endpos - offset)) hoff
        (by omega) (by omega) (by rw [List.length_nil]; omega) h
      rw [hn, if_neg (fun hne => hne rfl), wp_bind, wp_attempt]
      apply Wp.mono hpiece _ (fun e t ht => Or.inr ht) id
      rintro bs t ⟨hlen, ht⟩
      exact Or.inl ⟨rfl, hlen, ht⟩
    · have hm := Nat.mul_le_mul_right SFS_BLKSIZE
        (show offset / SFS_BLKSIZE + 1 ≤ endpos / SFS_BLKSIZE by omega)
      rw [Nat.succ_mul] at hm
      have hpiece := hstep _ _ _ _ [] _
        (Piece.part (offset / SFS_BLKSIZE) (offset % SFS_BLKSIZE)
          (SFS_BLKSIZE - offset % SFS_BLKSIZE)) hoff (by omega) (by omega)
        (by rw [List.length_nil]; omega) h
      rw [if_pos hn, wp_bind, wp_attempt]
      apply Wp.mono hpiece _ (fun e t ht => Or.inr ht) id
      rintro bs t ⟨hlen, ht⟩
      simp only [if_neg hn]
      rw [← hlen]
      apply wp_io_blocks hstep _ (by omega) ht
      rw [Nat.succ_mul, List.nil_append, hlen]
      omega
  · show Wp (io_blocks env write endpos _ (buf.drop ([] : List Byte).length) _ []) _ _ _ _
    apply wp_io_blocks hstep _ (by omega) h
    rw [List.length_nil]
    omega

end

/-! ## Longer and shorter files -/

/-- The number of blocks that so many bytes fill. -/
def blocksFor (n : Nat) : Nat := (n + (SFS_BLKSIZE - 1)) / SFS_BLKSIZE

theorem roundup_div_eq (n : Nat) : roundup_div n = blocksFor n := Nat.shiftRight_eq_div_pow _ _

theorem blocksFor_le {n k : Nat} : blocksFor n ≤ k ↔ n ≤ k * SFS_BLKSIZE := by
  unfold blocksFor SFS_BLKSIZE
  omega

theorem need_mono (c : Call) {m n : Nat} (h : m ≤ n) : need c m ≤ need c n := by
  unfold need
  split <;> split <;> omega

theorem Mapped.set_size {held : Nat → Prop} {c : Call} (h : Mapped held c) (n : Nat) :
    Mapped held (set_size n c) :=
  ⟨h.free.congr rfl rfl, h.ledger, h.bound, h.none, h.zero, h.own⟩

section

variable {held : Nat → Prop} {c : Call} {env : Around} {X : Prop} {n : Nat}

/-- What the loops of `sfs_truncfile` keep of the file. -/
structure SameFile (held : Nat → Prop) (c t : Call) : Prop where
  mapped : Mapped held t
  ino : t.sin.ino = c.sin.ino
  size : t.sin.din.size = c.sin.din.size
  type : t.sin.din.type = c.sin.din.type
  super : t.sfs.super.blocks = c.sfs.super.blocks
  kept : ∀ a, held a → t.sfs.disk a = c.sfs.disk a

theorem SameFile.refl (h : Mapped held c) : SameFile held c c := ⟨h, rfl, rfl, rfl, rfl, fun _ _ => rfl⟩

theorem SameFile.trans {t u : Call} (h : SameFile held c t) (h' : SameFile held t u) :
    SameFile held c u where
  mapped := h'.mapped
  ino := h'.ino.trans h.ino
  size := h'.size.trans h.size
  type := h'.type.trans h.type
  super := h'.super.trans h.super
  kept a ha := (h'.kept a ha).trans (h.kept a ha)

theorem Reached.same_file {i : Nat} {t : Call} (h : Reached held i c t) : SameFile held c t :=
  ⟨h.mapped, h.ino, h.size, h.type, h.super, h.kept⟩

theorem Shrunk.same_file {t : Call} (h : Shrunk held c t) : SameFile held c t :=
  ⟨h.mapped, h.ino, h.size, h.type, h.super, fun a ha => h.kept a (Or.inl ha)⟩

theorem Untouched.same_file {t : Call} (hu : Untouched c t) (h : Mapped held c) :
    SameFile held c t := by
  refine ⟨hu.mapped h, ?_, ?_, ?_, ?_, ?_⟩
  · rw [hu.sin]
  · rw [hu.sin]
  · rw [hu.sin]
  · rw [hu.super]
  · intro a ha
    apply hu.disk
    exact fun hf => (h.free_block hf).2.2.1 ha

/-- A loop that drops blocks leaves the file with so many less, or stops on the way. -/
theorem wp_shrink (h : Mapped held c) (hn : n ≤ c.blocks) :
    Wp (sfs_shrink env n)
      (fun _ t => SameFile held c t ∧ t.blocks + n = c.blocks ∧ (n ≠ 0 → t.sin.dirty = true))
      (fun _ t => SameFile held c t ∧ (t.sin = c.sin ∨ t.sin.dirty = true) ∧
        ∃ i a, env.dop_io i a ≠ 0) X c := by
  have hloop : Wp (sfs_shrink env n)
      (fun _ t => SameFile held c t ∧ t.blocks + (0 + n) = c.blocks ∧
        (0 + n = 0 → t.sin = c.sin) ∧ (0 + n ≠ 0 → t.sin.dirty = true))
      (fun _ t => SameFile held c t ∧ (t.sin = c.sin ∨ t.sin.dirty = true) ∧
        ∃ i a, env.dop_io i a ≠ 0) X c := by
    apply wp_countUp (I := fun k t => SameFile held c t ∧ t.blocks + k = c.blocks ∧
      (k = 0 → t.sin = c.sin) ∧ (k ≠ 0 → t.sin.dirty = true))
    · exact ⟨SameFile.refl h, rfl, fun _ => rfl, fun hk => absurd rfl hk⟩
    · intro k t _ hk ht
      have h0 : t.blocks ≠ 0 := by omega
      apply Wp.mono (wp_truncate ht.1.mapped h0) _ _ id
      · intro _ u hs
        have hbl := hs.blocks
        exact ⟨ht.1.trans hs.same_file, by omega, by omega, fun _ => hs.dirty⟩
      · intro e u hu
        obtain ⟨a, ha⟩ := hu.2
        rw [hu.1]
        refine ⟨ht.1, ?_, _, a, ha⟩
        by_cases hk0 : k = 0
        · exact Or.inl (ht.2.2.1 hk0)
        · exact Or.inr (ht.2.2.2 hk0)
  rw [Nat.zero_add] at hloop
  exact Wp.mono hloop (fun _ t ht => ⟨ht.1, ht.2.1, ht.2.2.2⟩) (fun _ _ he => he) id

/-- The inode is marked when a block is added at its end: it is marked before, or the new block
changes `direct` or `indirect`. -/
def MarksGrowth (c : Call) : Prop :=
  c.sin.dirty = true ∨ c.blocks < SFS_NDIRECT ∨ c.sin.din.indirect = 0

/-- A file that has grown from `c` on, block by block. -/
structure Longer (held : Nat → Prop) (env : Around) (c t : Call) : Prop
    extends SameFile held c t where
  le : c.blocks ≤ t.blocks
  same : t.blocks = c.blocks → t.sin = c.sin
  marked : c.blocks < t.blocks → MarksGrowth c → t.sin.dirty = true
  room : ∀ n, t.blocks ≤ n → t.free.card + need c n = c.free.card + need t n
  cells : cell t = cell c
  answers : c.blocks < t.blocks → SFS_NDIRECT ≤ c.blocks → c.sin.din.indirect ≠ 0 →
    LinkAnswers (env.dop_io c.blocks)

theorem Longer.refl (h : Mapped held c) : Longer held env c c where
  toSameFile := SameFile.refl h
  le := Nat.le_refl _
  same _ := rfl
  marked hlt := absurd hlt (Nat.lt_irrefl _)
  room _ _ := rfl
  cells := rfl
  answers hlt := absurd hlt (Nat.lt_irrefl _)

/-- One more block. -/
theorem Longer.step {t u : Call} {b : Nat} (h : Longer held env c t)
    (hl : Loaded held (env.dop_io t.blocks) t.blocks t u b) : Longer held env c u := by
  have hbl := hl.blocks
  have hle := h.le
  exact
    { toSameFile := h.toSameFile.trans hl.toReached.same_file
      le := by omega
      same := fun he => by omega
      marked := by
        intro _ hm
        apply (hl.dirty rfl).2
        by_cases he : t.blocks = c.blocks
        · have hsin := h.same he
          unfold Call.blocks
          rw [hsin]
          exact hm
        · exact Or.inl (h.marked (by omega) hm)
      room := by
        intro n hn
        have h1 := h.room n (by omega)
        have h2 := hl.need n (by omega)
        omega
      cells := hl.cells.trans h.cells
      answers := by
        intro _ hge hi
        by_cases he : t.blocks = c.blocks
        · have hsin := h.same he
          rw [← he]
          apply hl.answers rfl
          · rw [he]
            exact hge
          · rw [hsin]
            exact hi
        · exact h.answers (by omega) hge hi }

/-- The loop that adds blocks. Where it stops, the block at `t.blocks` could not be had. -/
theorem wp_grow (h : Mapped held c) (hn : c.blocks + n ≤ MAX_MAPPED)
    (hclear : ∀ i, c.blocks ≤ i → i < c.blocks + n →
      env.dop_io i .clear = 0 ∧ env.dop_io i .clearIndex = 0) :
    Wp (sfs_grow env c.blocks n)
      (fun _ t => Longer held env c t ∧ t.blocks = c.blocks + n)
      (fun _ t => ∃ u, Longer held env c u ∧ Untouched u t ∧ u.blocks < c.blocks + n ∧
        (u.free.card < need u (u.blocks + 1) ∨ ∃ a, env.dop_io u.blocks a ≠ 0)) X c := by
  apply wp_countUp (I := fun k t => Longer held env c t ∧ t.blocks = k)
  · exact ⟨Longer.refl h, rfl⟩
  · rintro _ t hk hkn ⟨ht, rfl⟩
    rw [wp_bind]
    apply Wp.mono (wp_load ht.mapped (Nat.le_refl _) (by omega) fun _ => hclear _ hk hkn) _ _ id
    · intro b u hl
      have hbl := hl.blocks
      exact ⟨ht.step hl, by omega⟩
    · rintro _ u ⟨hu, hs⟩
      exact ⟨t, ht, hu, hkn, hs⟩

end

end nehcpu.kernel.fs
