-- A file of the simple file system is an array of bytes: over any run of calls on one inode, without
-- device errors and with room on the disk, each call does to the array what it says.
import Nehcpu.Kernel.SfsIo

namespace nehcpu.kernel.fs

open Function nehcpu.command nehcpu.command.Cmd nehcpu.buffer

/-! ## The array -/

/-- The array cut, or filled with zeros, to a length. -/
def resize (content : List Byte) (len : Nat) : List Byte :=
  content.take len ++ List.replicate (len - content.length) 0

/-- What a call does to the array, and what it returns. -/
def FileOp.spec (content : List Byte) : FileOp → List Byte × Int × List Byte
  | .read offset len =>
    let ret := if (SFS_MAX_FILE_SIZE : Int) ≤ offset then -E_INVAL else 0
    (content, ret, (content.drop offset.toNat).take len)
  | .write offset data => (overwrite content offset.toNat data, 0, data)
  | .truncate len => (resize content len.toNat, 0, [])
  | .tryseek pos =>
    (if (content.length : Int) < pos then resize content pos.toNat else content, 0, [])

/-- The largest file of `MAX_MAPPED` blocks. -/
def MAX_MAPPED_SIZE : Nat := MAX_MAPPED * SFS_BLKSIZE

/-- Reads end below 2^31, writes start in the file or at its end, and the file is cut to nothing or
made longer. -/
def FileOp.Fits (content : List Byte) : FileOp → Prop
  | .read offset len => 0 ≤ offset ∧ offset + len < 2 ^ 31
  | .write offset data =>
    0 ≤ offset ∧ offset.toNat ≤ content.length ∧ offset.toNat + data.length ≤ MAX_MAPPED_SIZE
  | .truncate len => len = 0 ∨ (content.length : Int) ≤ len ∧ len ≤ MAX_MAPPED_SIZE
  | .tryseek pos => 0 ≤ pos ∧ pos ≤ MAX_MAPPED_SIZE

instance FileOp.Fits.decidable (content : List Byte) : ∀ op, Decidable (FileOp.Fits content op)
  | .read _ _ => inferInstanceAs (Decidable (_ ∧ _))
  | .write _ _ => inferInstanceAs (Decidable (_ ∧ _ ∧ _))
  | .truncate _ => inferInstanceAs (Decidable (_ ∨ _ ∧ _))
  | .tryseek _ => inferInstanceAs (Decidable (_ ∧ _))

/-- The inode is the array: the bytes, the size and the number of blocks. -/
structure IsArray (held : Nat → Prop) (c : Call) (content : List Byte) : Prop where
  mapped : Mapped held c
  file : c.sin.din.type ≠ SFS_TYPE_DIR
  size : c.sin.din.size = content.length
  blocks : c.blocks = blocksFor content.length
  cells : cell c = fun p => content.getD p 0

/-- No access to the device fails. -/
def Around.Quiet (env : Around) : Prop := ∀ i a, env.dop_io i a = 0

/-- There are the free blocks that the array needs after the call. -/
def Room (c : Call) (content : List Byte) : Prop := need c (blocksFor content.length) ≤ c.free.card

instance (c : Call) (content : List Byte) : Decidable (Room c content) :=
  inferInstanceAs (Decidable (_ ≤ _))

section

variable {held : Nat → Prop} {c t : Call} {content : List Byte} {env : Around} {X : Prop}
  {E : Int → Call → Prop}

theorem IsArray.size_le (h : IsArray held c content) : content.length ≤ c.blocks * SFS_BLKSIZE := by
  apply blocksFor_le.1
  rw [h.blocks]

theorem IsArray.length_le (h : IsArray held c content) : content.length ≤ MAX_MAPPED_SIZE :=
  Nat.le_trans h.size_le (Nat.mul_le_mul_right _ h.mapped.bound)

/-! ## Reading and writing -/

/-- The pieces of a transfer up to some place of the file. -/
structure Midway (held : Nat → Prop) (c : Call) (write : Bool) (buf : List Byte) (offset n : Nat)
    (done : List Byte) (t : Call) : Prop extends SameFile held c t where
  blocks : t.blocks = max c.blocks (blocksFor (offset + done.length))
  room : t.free.card + need c n = c.free.card + need t n
  moved : if write then done = buf.take done.length ∧ cell t = patch (cell c) offset done
    else done = slice (cell c) offset done.length ∧ cell t = cell c

theorem Midway.refl (h : Mapped held c) (write : Bool) (buf : List Byte) {offset : Nat} (n : Nat)
    (hoff : offset ≤ c.blocks * SFS_BLKSIZE) : Midway held c write buf offset n [] c where
  toSameFile := SameFile.refl h
  blocks := by
    have hle := blocksFor_le.2 hoff
    rw [List.length_nil, Nat.add_zero]
    omega
  room := rfl
  moved := by
    cases write with
    | true => exact ⟨rfl, (patch_nil _ _).symm⟩
    | false => exact ⟨rfl, rfl⟩

theorem Midway.step {u : Call} {write : Bool} {buf done bs : List Byte} {offset n i off size : Nat}
    (h : Midway held c write buf offset n done t) (hr : Reached held i t u)
    (hlen : bs.length = size) (hin : i < n) (hpos : i * SFS_BLKSIZE + off = offset + done.length)
    (hsize : 0 < size) (hfit : off + size ≤ SFS_BLKSIZE)
    (hm : Moved write (buf.drop done.length) (i * SFS_BLKSIZE + off) size t u bs) :
    Midway held c write buf offset n (done ++ bs) u where
  toSameFile := h.toSameFile.trans hr.same_file
  blocks := by
    have hfor : blocksFor (offset + (done ++ bs).length) = i + 1 := by
      rw [List.length_append, hlen, ← Nat.add_assoc, ← hpos]
      apply Nat.le_antisymm
      · apply blocksFor_le.2
        rw [Nat.succ_mul]
        omega
      · apply Nat.le_of_not_lt
        intro hlt
        have hle := blocksFor_le.1 (Nat.le_of_lt_succ hlt)
        omega
    have hprev : blocksFor (offset + done.length) ≤ i + 1 := by
      apply blocksFor_le.2
      rw [Nat.succ_mul]
      omega
    rw [hr.blocks, hfor, h.blocks]
    omega
  room := by
    have h1 := h.room
    have h2 := hr.need n hin
    omega
  moved := by
    have hold := h.moved
    unfold Moved at hm
    cases write with
    | true =>
      simp only [if_true] at hold hm ⊢
      constructor
      · rw [List.length_append, List.take_add, ← hold.1, hlen, hm.1]
      · rw [hm.2, hold.2, hpos, patch_patch]
    | false =>
      simp only [Bool.false_eq_true, if_false] at hold hm ⊢
      constructor
      · rw [List.length_append, slice_append, ← hold.1, hlen, ← hpos, ← hold.2, ← hm.1]
      · rw [hm.2, hold.2]

/-- A transfer without device errors and with room for its blocks goes to its end. -/
theorem wp_io_array (h : IsArray held c content) (henv : env.Quiet) {write : Bool}
    {buf : List Byte} {offset endpos n : Nat} (hlt : offset < endpos)
    (hoff : offset ≤ content.length) (hend : endpos ≤ n * SFS_BLKSIZE) (hn : n ≤ MAX_MAPPED)
    (hroom : need c n ≤ c.free.card) (hbuf : write = true → endpos - offset ≤ buf.length) :
    Wp (io_body env write buf offset endpos)
      (fun r t => r.1 = 0 ∧ r.2.length = endpos - offset ∧
        Midway held c write buf offset n r.2 t) E X c := by
  have hoff' := Nat.le_trans hoff h.size_le
  have hbody : Wp (io_body env write buf offset endpos)
      (fun r t => r.1 = 0 ∧ r.2.length = endpos - offset ∧
        Midway held c write buf offset n r.2 t ∨ False) E X c := by
    apply wp_io_body (I := Midway held c write buf offset n) (F := fun _ _ => False) hlt
      (Midway.refl h.mapped write buf n hoff')
    intro m i off size done t hp hpos hsize hfit hle ht
    have hin : i < n := by
      have hm : i * SFS_BLKSIZE < n * SFS_BLKSIZE := by omega
      exact Nat.lt_of_mul_lt_mul_right hm
    have hi : i ≤ t.blocks := by
      have hb : t.blocks ≥ blocksFor (offset + done.length) := by
        rw [ht.blocks]
        omega
      have hfor := blocksFor_le.1 hb
      rw [← hpos] at hfor
      have hm : i * SFS_BLKSIZE ≤ t.blocks * SFS_BLKSIZE := by omega
      exact Nat.le_of_mul_le_mul_right hm (by decide)
    have hdrop : write = true → size ≤ (buf.drop done.length).length := by
      intro hw
      have hb := hbuf hw
      rw [List.length_drop]
      omega
    apply Wp.mono (wp_piece ht.mapped hp hi (by omega) hsize hfit hdrop
      fun _ => ⟨henv _ _, henv _ _⟩) _ _ id
    · rintro bs u ⟨hr, hlen, hm⟩
      exact ⟨hlen, ht.step hr hlen hin hpos hsize hfit hm⟩
    · rintro e u ⟨-, hs | ⟨a, ha⟩⟩
      · have h1 := ht.room
        have h2 := need_mono t (show i + 1 ≤ n from hin)
        omega
      · exact absurd (henv i a) ha
  apply Wp.mono hbody _ (fun _ _ he => he) id
  rintro r t (hr | hr)
  · exact hr
  · exact hr.elim

theorem off_add_eq {offset : Int} {len : Nat} (h0 : 0 ≤ offset) (h : offset + len < 2 ^ 31) :
    off_add offset len = offset + len := by
  unfold off_add
  apply Int.bmod_eq_of_le
  · omega
  · omega

theorem wp_read (h : IsArray held c content) (henv : env.Quiet) {offset : Int} {len : Nat}
    (hf : (FileOp.read offset len).Fits content) :
    Wp ((FileOp.read offset len).run env)
      (fun r t => IsArray held t content ∧ SameFile held c t ∧
        r = ((FileOp.read offset len).spec content).2) E X c := by
  obtain ⟨h0, hsum⟩ := hf
  have hmax := h.length_le
  have hnone : content.length ≤ offset.toNat ∨ len = 0 →
      (content.drop offset.toNat).take len = [] := by
    rintro (hge | rfl)
    · rw [List.drop_eq_nil_of_le hge, List.take_nil]
    · rw [List.take_zero]
  have hsame := SameFile.refl h.mapped
  simp only [FileOp.run, sfs_io_nolock, FileOp.spec, wp_bind, wp_get, wp_check, if_pos h.file]
  unfold io_end
  rw [off_add_eq h0 hsum]
  by_cases hbig : (SFS_MAX_FILE_SIZE : Int) ≤ offset
  · have hge : content.length ≤ offset.toNat := by
      unfold MAX_MAPPED_SIZE MAX_MAPPED SFS_NDIRECT SFS_BLK_NENTRY SFS_BLKSIZE at hmax
      unfold SFS_MAX_FILE_SIZE at hbig
      omega
    simp only [if_pos (Or.inr (Or.inl hbig)), hnone (Or.inl hge), if_pos hbig, wp_pure]
    exact ⟨h, hsame, trivial⟩
  · have hsmall : ¬ (offset < 0 ∨ (SFS_MAX_FILE_SIZE : Int) ≤ offset ∨ offset + len < offset) := by
      omega
    simp only [if_neg hsmall, if_neg hbig]
    by_cases hzero : len = 0
    · simp only [hzero, Nat.cast_zero, Int.add_zero, if_true, wp_pure, List.take_zero]
      exact ⟨h, hsame, trivial⟩
    · have hne : ¬ offset = offset + len := by omega
      simp only [if_neg hne, Bool.false_eq_true, if_false, h.size]
      by_cases hge : content.length ≤ offset.toNat
      · simp only [if_pos hge, wp_pure, hnone (Or.inl hge)]
        exact ⟨h, hsame, trivial⟩
      · -- the transfer stays in the file
        have hend : min (min (offset + len).toNat SFS_MAX_FILE_SIZE) content.length =
            min (offset.toNat + len) content.length := by
          unfold MAX_MAPPED_SIZE MAX_MAPPED SFS_NDIRECT SFS_BLK_NENTRY SFS_BLKSIZE at hmax
          unfold SFS_MAX_FILE_SIZE
          omega
        have hsize := h.size_le
        have hneed : need c c.blocks = 0 := by
          unfold need
          rw [if_neg (fun hn => h.mapped.indirect_ne hn.2 hn.1)]
          omega
        simp only [if_neg hge, hend, wp_bind, wp_get, wp_ite, wp_modify, wp_pure]
        apply Wp.mono (wp_io_array h henv (by omega) (by omega) (by omega) h.mapped.bound
          (by omega) (fun hw => absurd hw Bool.false_ne_true)) _ (fun _ _ he => he) id
        rintro ⟨ret, done⟩ t ⟨rfl, hlen, hm⟩
        simp only at hlen hm
        have hmoved := hm.moved
        simp only [Bool.false_eq_true, if_false] at hmoved
        have harr : IsArray held t content :=
          { mapped := hm.mapped
            file := by
              rw [hm.type]
              exact h.file
            size := hm.size.trans h.size
            blocks := by
              have hle : blocksFor (offset.toNat + done.length) ≤ c.blocks := by
                apply blocksFor_le.2
                omega
              rw [hm.blocks, ← h.blocks]
              omega
            cells := hmoved.2.trans h.cells }
        have hdone : done = (content.drop offset.toNat).take len := by
          rw [hmoved.1, h.cells, slice_getD_eq _ _ _ (by omega), hlen]
          rw [List.take_eq_take_iff, List.length_drop]
          omega
        have hnosize : ¬ t.sin.din.size < offset.toNat + done.length := by
          rw [harr.size]
          omega
        rw [if_neg hnosize]
        exact ⟨harr, hm.toSameFile, by rw [hdone]⟩

theorem SameFile.set_size (h : SameFile held c t) (n : Nat) (hs : c.sin.din.size = n) :
    SameFile held c (set_size n t) :=
  ⟨h.mapped.set_size n, h.ino, hs.symm, h.type, h.super, h.kept⟩

/-- What a call leaves of the blocks of others and of the inode's own place. -/
structure Apart (held : Nat → Prop) (c t : Call) : Prop where
  ino : t.sin.ino = c.sin.ino
  super : t.sfs.super.blocks = c.sfs.super.blocks
  kept : ∀ a, held a → t.sfs.disk a = c.sfs.disk a

theorem SameFile.apart (h : SameFile held c t) : Apart held c t := ⟨h.ino, h.super, h.kept⟩

theorem wp_write (h : IsArray held c content) (henv : env.Quiet) {offset : Int} {data : List Byte}
    (hf : (FileOp.write offset data).Fits content)
    (hroom : Room c (overwrite content offset.toNat data)) :
    Wp ((FileOp.write offset data).run env)
      (fun r t => IsArray held t (overwrite content offset.toNat data) ∧ Apart held c t ∧
        r = (0, data)) E X c := by
  obtain ⟨h0, hoff, hend⟩ := hf
  have hbound : MAX_MAPPED_SIZE < SFS_MAX_FILE_SIZE := by decide
  have hmax : SFS_MAX_FILE_SIZE < 2 ^ 31 := by decide
  have hlen := overwrite_length data hoff
  simp only [FileOp.run, sfs_io_nolock, wp_bind, wp_get, wp_check, if_pos h.file]
  unfold io_end
  rw [off_add_eq h0 (by omega)]
  have hguard : ¬ (offset < 0 ∨ (SFS_MAX_FILE_SIZE : Int) ≤ offset ∨ offset + data.length < offset) := by
    omega
  simp only [if_neg hguard]
  by_cases hzero : data = []
  · have hover : overwrite content offset.toNat data = content := by simp [overwrite, hzero]
    rw [hover]
    simp only [hzero, List.length_nil, Nat.cast_zero, Int.add_zero, if_true, wp_pure]
    exact ⟨h, (SameFile.refl h.mapped).apart, trivial⟩
  · have hpos := List.length_pos_iff.2 hzero
    have hne : ¬ offset = offset + data.length := by omega
    have hlast : min (offset + data.length).toNat SFS_MAX_FILE_SIZE =
        offset.toNat + data.length := by omega
    have hlength := h.length_le
    simp only [if_neg hne, if_true, hlast, wp_bind, wp_get, wp_ite, wp_modify, wp_pure]
    unfold Room at hroom
    rw [hlen] at hroom
    apply Wp.mono (wp_io_array h henv (by omega) hoff
      (Nat.le_trans (Nat.le_max_right _ _) (blocksFor_le.1 (Nat.le_refl _)))
      (blocksFor_le.2 (by unfold MAX_MAPPED_SIZE at hend hlength; omega)) hroom (by omega)) _
      (fun _ _ he => he) id
    rintro ⟨ret, done⟩ t ⟨rfl, hdl, hm⟩
    simp only at hdl hm
    have hmoved := hm.moved
    simp only [if_true] at hmoved
    have hdone : done = data := by
      rw [hmoved.1, hdl]
      apply List.take_of_length_le
      omega
    subst hdone
    have hcells : cell t = fun p => (overwrite content offset.toNat done).getD p 0 := by
      rw [overwrite_getD done hoff, hmoved.2, h.cells]
    have hblocks : t.blocks = blocksFor (overwrite content offset.toNat done).length := by
      rw [hm.blocks, h.blocks, hlen]
      unfold blocksFor
      rcases Nat.le_total content.length (offset.toNat + done.length) with hle | hle
      · rw [Nat.max_eq_right hle, Nat.max_eq_right (Nat.div_le_div_right (by omega))]
      · rw [Nat.max_eq_left hle, Nat.max_eq_left (Nat.div_le_div_right (by omega))]
    have hfile : t.sin.din.type ≠ SFS_TYPE_DIR := by
      rw [hm.type]
      exact h.file
    by_cases hlonger : t.sin.din.size < offset.toNat + done.length
    · rw [if_pos hlonger]
      rw [hm.size, h.size] at hlonger
      have hsize : offset.toNat + done.length = (overwrite content offset.toNat done).length := by
        rw [hlen]
        omega
      exact ⟨⟨hm.mapped.set_size _, hfile, hsize, hblocks, hcells⟩,
        ⟨hm.ino, hm.super, hm.kept⟩, rfl⟩
    · rw [if_neg hlonger]
      rw [hm.size, h.size] at hlonger
      have hsize : t.sin.din.size = (overwrite content offset.toNat done).length := by
        rw [hm.size, h.size, hlen]
        omega
      exact ⟨⟨hm.mapped, hfile, hsize, hblocks, hcells⟩, hm.toSameFile.apart, rfl⟩

/-! ## Truncation -/

theorem resize_of_le {len : Nat} (h : content.length ≤ len) :
    resize content len = content ++ List.replicate (len - content.length) 0 := by
  rw [resize, List.take_of_length_le h]

@[simp] theorem resize_length (len : Nat) : (resize content len).length = len := by
  simp [resize]
  omega

/-- After the loops of `sfs_truncfile` only the size is left to be set. -/
theorem IsArray.resized (h : IsArray held c content) {len : Nat} (hs : SameFile held c t)
    (hb : t.blocks = blocksFor len)
    (hc : cell t = fun p => (resize content len).getD p 0) :
    IsArray held (set_size len t) (resize content len) where
  mapped := hs.mapped.set_size len
  file := by
    have hty : t.sin.din.type ≠ SFS_TYPE_DIR := by
      rw [hs.type]
      exact h.file
    exact hty
  size := (resize_length len).symm
  blocks := by
    rw [resize_length]
    exact hb
  cells := hc

theorem wp_truncfile (h : IsArray held c content) (henv : env.Quiet) {len : Nat}
    (hlen : len = 0 ∨ content.length ≤ len) (hmax : len ≤ MAX_MAPPED_SIZE)
    (hroom : Room c (resize content len)) :
    Wp (sfs_truncfile env len)
      (fun _ t => IsArray held t (resize content len) ∧ Apart held c t) E X c := by
  have hbound : MAX_MAPPED_SIZE < SFS_MAX_FILE_SIZE := by decide
  have hguard : ¬ ((len : Int) < 0 ∨ (SFS_MAX_FILE_SIZE : Int) < len) := by omega
  have hblocks := h.blocks
  have hdef : c.sin.din.blocks = c.blocks := rfl
  unfold Room at hroom
  rw [resize_length] at hroom
  unfold sfs_truncfile
  simp only [wp_bind, wp_get, wp_check, wp_ite, wp_modify, if_neg hguard, Int.toNat_natCast,
    roundup_div_eq, h.size]
  by_cases hsame : content.length = len
  · have hres : resize content len = content := by
      rw [resize_of_le (Nat.le_of_eq hsame), hsame, Nat.sub_self, List.replicate_zero,
        List.append_nil]
    have hcheck : blocksFor len = c.blocks := by rw [hblocks, hsame]
    rw [if_pos hsame, if_pos hcheck, hres]
    exact ⟨h, (SameFile.refl h.mapped).apart⟩
  · rw [if_neg hsame]
    by_cases hgrow : c.blocks < blocksFor len
    · have hle : content.length ≤ len := by
        rcases hlen with rfl | hlen
        · exact absurd hgrow (by unfold blocksFor SFS_BLKSIZE; omega)
        · exact hlen
      have hn : c.blocks + (blocksFor len - c.blocks) = blocksFor len := by omega
      have hfit : blocksFor len ≤ MAX_MAPPED := blocksFor_le.2 hmax
      rw [if_pos hgrow]
      apply Wp.mono (wp_grow h.mapped (by omega) fun _ _ _ => ⟨henv _ _, henv _ _⟩) _ _ id
      · rintro _ t ⟨hl, hb⟩
        rw [hn] at hb
        rw [if_pos hb]
        refine ⟨h.resized hl.toSameFile hb ?_, hl.ino, hl.super, hl.kept⟩
        rw [hl.cells, h.cells, resize_of_le hle]
        funext p
        exact (getD_append_zeros content _ p).symm
      · rintro e t ⟨u, hl, -, hlt, hs | ⟨a, ha⟩⟩
        · have h1 := hl.room (blocksFor len) (by omega)
          have h2 := need_mono u (show u.blocks + 1 ≤ blocksFor len by omega)
          omega
        · exact absurd (henv _ a) ha
    · rw [if_neg hgrow]
      by_cases hkeep : c.blocks - blocksFor len = 0
      · have hb : c.blocks = blocksFor len := by omega
        rw [hkeep]
        simp only [sfs_shrink, countUp, wp_ret]
        rw [if_pos hb]
        refine ⟨h.resized (SameFile.refl h.mapped) hb ?_, rfl, rfl, fun _ _ => rfl⟩
        have hle : content.length ≤ len := by
          rcases hlen with rfl | hlen
          · have h0 := h.size_le
            have hz : c.blocks = 0 := by
              rw [hb]
              unfold blocksFor SFS_BLKSIZE
              omega
            rw [hz, Nat.zero_mul] at h0
            exact h0
          · exact hlen
        rw [h.cells, resize_of_le hle]
        funext p
        exact (getD_append_zeros content _ p).symm
      · -- the file gets shorter, so it is cut to nothing
        have hzero : len = 0 := by
          rcases hlen with hlen | hlen
          · exact hlen
          · have hle : blocksFor content.length ≤ blocksFor len :=
              blocksFor_le.2 (Nat.le_trans hlen (blocksFor_le.1 (Nat.le_refl _)))
            omega
        subst hzero
        have h0 : blocksFor 0 = 0 := by decide
        rw [h0, Nat.sub_zero]
        apply Wp.mono (wp_shrink h.mapped (Nat.le_refl _)) _ _ id
        · rintro _ t ⟨hs, hb, -⟩
          have hb : t.blocks = 0 := by omega
          rw [if_pos hb]
          refine ⟨h.resized hs (hb.trans h0.symm) ?_, hs.ino, hs.super, hs.kept⟩
          funext p
          have hres : resize content 0 = [] := List.length_eq_zero_iff.1 (resize_length 0)
          have hp : ¬ p / SFS_BLKSIZE < t.blocks := by
            rw [hb]
            exact Nat.not_lt_zero _
          rw [hres, cell, if_neg hp]
          rfl
        · rintro e t ⟨-, -, i, a, ha⟩
          exact absurd (henv i a) ha

/-! ## Runs -/

theorem wp_op (h : IsArray held c content) (henv : env.Quiet) {op : FileOp} (hf : op.Fits content)
    (hroom : Room c (op.spec content).1) :
    Wp (op.run env) (fun r t => IsArray held t (op.spec content).1 ∧ Apart held c t ∧
      r = (op.spec content).2) E X c := by
  cases op with
  | read offset len =>
    apply Wp.mono (wp_read h henv hf) _ (fun _ _ he => he) id
    rintro r t ⟨ht, hs, hr⟩
    exact ⟨ht, hs.apart, hr⟩
  | write offset data => exact wp_write h henv hf hroom
  | truncate len =>
    have hlen : len = (len.toNat : Int) := by
      rcases hf with hf | hf <;> omega
    have hcase : len.toNat = 0 ∨ content.length ≤ len.toNat := by
      rcases hf with hf | hf <;> omega
    have hmax : len.toNat ≤ MAX_MAPPED_SIZE := by
      rcases hf with hf | hf <;> omega
    simp only [FileOp.run, wp_bind, wp_attempt]
    rw [hlen]
    apply Wp.mono (wp_truncfile (E := fun _ _ => False) h henv hcase hmax hroom) _
      (fun _ _ he => he.elim) id
    rintro _ t ⟨ht, ha⟩
    exact ⟨ht, ha, rfl⟩
  | tryseek pos =>
    obtain ⟨h0, hmax⟩ := hf
    have hbound : MAX_MAPPED_SIZE < SFS_MAX_FILE_SIZE := by decide
    have hguard : ¬ (pos < 0 ∨ (SFS_MAX_FILE_SIZE : Int) ≤ pos) := by omega
    simp only [FileOp.run, FileOp.spec, sfs_tryseek, wp_bind, wp_attempt, wp_ite, wp_get, wp_pure,
      if_neg hguard, h.size] at hroom ⊢
    by_cases hlt : (content.length : Int) < pos
    · have hpos : pos = (pos.toNat : Int) := by omega
      simp only [if_pos hlt] at hroom ⊢
      rw [hpos]
      apply Wp.mono (wp_truncfile (E := fun _ _ => False) h henv (Or.inr (by omega)) (by omega)
        hroom) _ (fun _ _ he => he.elim) id
      rintro _ t ⟨ht, ha⟩
      exact ⟨ht, ha, trivial⟩
    · simp only [if_neg hlt]
      exact ⟨h, (SameFile.refl h.mapped).apart, trivial⟩

end

/-- The calls one after the other, with what they return. -/
def runOps : List (Around × FileOp) → SfsM (List (Int × List Byte))
  | [] => pure []
  | (env, op) :: ops => do
    let r ← op.run env
    let rs ← runOps ops
    pure (r :: rs)

/-- The array after the calls, with what they return. -/
def specOps (content : List Byte) : List (Around × FileOp) → List Byte × List (Int × List Byte)
  | [] => (content, [])
  | (_, op) :: ops =>
    let rest := specOps (op.spec content).1 ops
    (rest.1, (op.spec content).2 :: rest.2)

/-- No access fails, each call is one that the array is made for, and each finds the free blocks
that it needs. -/
def Served : Call → List Byte → List (Around × FileOp) → Prop
  | _, _, [] => True
  | c, content, (env, op) :: ops =>
    env.Quiet ∧ op.Fits content ∧ Room c (op.spec content).1 ∧
      ∀ r t, op.run env c = .ok r t → Served t (op.spec content).1 ops

/-- Over any run the file is the array: it returns what the array says, and the bytes, the size and
the number of blocks are those of the array. The blocks of others stay as they are. -/
theorem file_is_array {held : Nat → Prop} {c : Call} {content : List Byte}
    {ops : List (Around × FileOp)} (h : IsArray held c content) (hs : Served c content ops) :
    Wp (runOps ops) (fun rs t => rs = (specOps content ops).2 ∧
      IsArray held t (specOps content ops).1 ∧
      t.sin.din.size = (specOps content ops).1.length ∧
      t.sin.din.blocks = (t.sin.din.size + 4095) / 4096 ∧ Apart held c t)
      (fun _ _ => False) False c := by
  induction ops generalizing c content with
  | nil =>
    refine ⟨rfl, h, h.size, ?_, rfl, rfl, fun _ _ => rfl⟩
    rw [h.size]
    exact h.blocks
  | cons eo ops ih =>
    obtain ⟨env, op⟩ := eo
    obtain ⟨henv, hf, hroom, hrest⟩ := hs
    have hop : Wp (op.run env) (fun r t => IsArray held t (op.spec content).1 ∧ Apart held c t ∧
      r = (op.spec content).2) (fun _ _ => False) False c := wp_op h henv hf hroom
    rw [runOps, wp_bind]
    unfold Wp at hop ⊢
    cases hrun : op.run env c with
    | stop =>
      rw [hrun] at hop
      exact hop
    | fail e t =>
      rw [hrun] at hop
      exact hop
    | ok r t =>
      rw [hrun] at hop
      obtain ⟨ht, ha, hr⟩ := hop
      have hgo := ih ht (hrest r t hrun)
      show Wp _ _ _ _ _
      rw [wp_bind]
      apply Wp.mono hgo _ (fun _ _ he => he) id
      rintro rs u ⟨hrs, hu, hsize, hblocks, hau⟩
      refine ⟨?_, hu, hsize, hblocks, hau.ino.trans ha.ino, hau.super.trans ha.super, ?_⟩
      · rw [hr, hrs]
        rfl
      · intro a hh
        exact (hau.kept a hh).trans (ha.kept a hh)

/-! ## A small disk -/

/-- Eight blocks: the super block, the root, the bitmap, an inode and its only block, with one
byte in use. -/
def oneByte : Call where
  sfs :=
    { super := ⟨8, 3⟩
      super_dirty := false
      freemap := ⟨32, 1, fun _ => 0xE0#32⟩
      disk := update (fun _ => Buffer.zero) 4 (patch Buffer.zero 0 [7]) }
  sin :=
    { din := ⟨1, SFS_TYPE_FILE, 1, 1, fun i => if i = 0 then 4 else 0, 0⟩
      ino := 3
      dirty := true }

def quiet : Around := ⟨fun _ _ => 0, fun _ => 0⟩

theorem oneByte_isArray : IsArray (· < 4) oneByte [7] where
  mapped :=
    { free := ⟨by decide, by decide, by decide, by decide +kernel, by decide +kernel⟩
      ledger := ⟨by decide +kernel, by decide +kernel, by decide +kernel, by decide +kernel,
        by decide +kernel⟩
      bound := by decide
      none := by
        intro i hi _
        have h1 : 1 ≤ i := hi
        have h0 : i ≠ 0 := by omega
        simp [bmap, oneByte, h0]
      zero := by decide
      own := by decide }
  file := by decide
  size := rfl
  blocks := by decide
  cells := by
    apply cell_ext
    intro i k hk
    rw [cell_at hk]
    by_cases hi : i < oneByte.blocks
    · have h0 : i = 0 := Nat.lt_one_iff.1 hi
      subst h0
      rw [if_pos hi, Nat.zero_mul, Nat.zero_add]
      rcases k with _ | k
      · rfl
      · have hout : 0 + [(7 : Byte)].length ≤ k + 1 := by simp
        exact patch_out _ _ _ (Or.inr hout)
    · have h1 : 1 ≤ i := Nat.le_of_not_lt hi
      have hge := Nat.mul_le_mul_right SFS_BLKSIZE h1
      rw [if_neg hi]
      apply (List.getD_eq_default _ _ _).symm
      unfold SFS_BLKSIZE at hge ⊢
      rw [List.length_singleton]
      omega

/-- A byte more at the end, and the two bytes read. -/
theorem file_is_array_oneByte :
    Wp (runOps [(quiet, .write 1 [8]), (quiet, .read 0 100)])
      (fun rs t => rs = [(0, [8]), (0, [7, 8])] ∧ t.sin.din.size = 2) (fun _ _ => False) False
      oneByte := by
  have hfirst : Room oneByte (overwrite [7] 1 [8]) := by decide +kernel
  have hserved : Served oneByte [7] [(quiet, .write 1 [8]), (quiet, .read 0 100)] := by
    refine ⟨fun _ _ => rfl, by decide, hfirst, ?_⟩
    intro r t hrun
    refine ⟨fun _ _ => rfl, by decide, ?_, fun _ _ _ => trivial⟩
    have hop : Wp ((FileOp.write 1 [8]).run quiet)
        (fun r t => IsArray (· < 4) t (overwrite [7] 1 [8]) ∧ Apart (· < 4) oneByte t ∧ r = (0, [8]))
        (fun _ _ => False) False oneByte := wp_write oneByte_isArray (fun _ _ => rfl) (by decide) hfirst
    unfold Wp at hop
    rw [hrun] at hop
    have hblocks : t.blocks = 1 := hop.1.blocks
    have hneed : need t 1 = 0 := by
      unfold need
      rw [hblocks, if_neg (fun hn => absurd hn.2 (by decide))]
    exact Nat.le_trans (Nat.le_of_eq hneed) (Nat.zero_le _)
  apply Wp.mono (file_is_array oneByte_isArray hserved) _ (fun _ _ he => he) id
  rintro rs t ⟨hrs, -, hsize, -⟩
  exact ⟨hrs, hsize⟩

/-- A read whose end is past 2^31 is refused, also where the file has bytes. -/
theorem long_read_refused :
    ¬ ∀ (held : Nat → Prop) (c : Call) (content : List Byte) (env : Around) (offset : Int)
      (len : Nat), IsArray held c content → env.Quiet → 0 ≤ offset →
        Wp ((FileOp.read offset len).run env)
          (fun r _ => r.2 = (content.drop offset.toNat).take len) (fun _ _ => False) False c := by
  intro h
  have hlong : ∃ len, off_add 0 len < 0 ∧ 1 ≤ len := ⟨2 ^ 31, by decide, by decide⟩
  obtain ⟨len, hneg, hlen⟩ := hlong
  have hc : ∃ c content, IsArray (· < 4) c content ∧ content.length = 1 :=
    ⟨oneByte, [7], oneByte_isArray, rfl⟩
  obtain ⟨c, content, hc, hone⟩ := hc
  have hend : io_end c.sin.din.size 0 len false = .error (-E_INVAL) := by
    unfold io_end
    exact if_pos (Or.inr (Or.inr hneg))
  have hw := h _ c content quiet 0 len hc (fun _ _ => rfl) (Int.le_refl 0)
  simp only [FileOp.run, sfs_io_nolock, wp_bind, wp_get, wp_check, if_pos hc.file, hend,
    wp_pure] at hw
  have hlength := congrArg List.length hw
  simp only [List.length_nil, List.length_take, List.length_drop, Int.toNat_zero] at hlength
  omega

end nehcpu.kernel.fs
