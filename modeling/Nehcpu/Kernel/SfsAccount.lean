-- The accounts of the file system when the device fails: whose each block is, how many are free, how
-- many each inode has, and which inodes the disk does not know yet.
import Nehcpu.Kernel.SfsFile
import Nehcpu.Lib.Machine

namespace nehcpu.kernel.fs

open Function nehcpu.command nehcpu.command.Cmd nehcpu.buffer nehcpu.machine

/-! ## The calls that keep the accounts -/

/-- The clearing of a block that is added below `last` does not fail. -/
def ClearsBelow (env : Around) (c : Call) (last : Nat) : Prop :=
  ∀ i, c.blocks ≤ i → i < last → env.dop_io i .clear = 0 ∧ env.dop_io i .clearIndex = 0

/-- A transfer: it stays in the blocks that can be mapped, no clearing fails, and where the first
new block does not mark the inode, its data go through or the end of the file moves. -/
def IoHarmless (env : Around) (c : Call) (offset : Int) (len : Nat) (write : Bool) : Prop :=
  ∀ endpos, io_end c.sin.din.size offset len write = .ok endpos →
    endpos ≤ MAX_MAPPED_SIZE ∧ ClearsBelow env c (blocksFor endpos) ∧
      (MarksGrowth c ∨ endpos ≤ c.blocks * SFS_BLKSIZE ∨
        (env.dop_io c.blocks .dataRead = 0 ∧ env.dop_io c.blocks .dataWrite = 0) ∨
        c.sin.din.size < c.blocks * SFS_BLKSIZE)

/-- A truncation: where it adds blocks, they can be mapped, no clearing fails, and where the first
new block does not mark the inode, it fails at this block or not at all. -/
def TruncHarmless (env : Around) (c : Call) (len : Int) : Prop :=
  0 ≤ len → len ≤ SFS_MAX_FILE_SIZE → c.blocks < blocksFor len.toNat →
    len ≤ MAX_MAPPED_SIZE ∧ ClearsBelow env c (blocksFor len.toNat) ∧
      (MarksGrowth c ∨ c.free.card < need c (c.blocks + 1) ∨ ¬ LinkAnswers (env.dop_io c.blocks) ∨
        (need c (blocksFor len.toNat) ≤ c.free.card ∧
          ∀ i a, c.blocks < i → i < blocksFor len.toNat → env.dop_io i a = 0))

def FileOp.Harmless (env : Around) (c : Call) : FileOp → Prop
  | .read offset len => IoHarmless env c offset len false
  | .write offset data => IoHarmless env c offset data.length true
  | .truncate len => TruncHarmless env c len
  | .tryseek pos => (c.sin.din.size : Int) < pos → TruncHarmless env c pos

/-- What a call leaves, also where it fails: the map is in order, what others hold is as it was,
and a change of the inode has marked it. -/
structure Kept (held : Nat → Prop) (c t : Call) : Prop extends Apart held c t where
  mapped : Mapped held t
  marked : t.sin = c.sin ∨ t.sin.dirty = true

section

variable {held : Nat → Prop} {c t : Call} {env : Around} {Q : Unit → Call → Prop}

theorem Kept.refl (h : Mapped held c) : Kept held c c :=
  ⟨(SameFile.refl h).apart, h, Or.inl rfl⟩

theorem SameFile.kept_call (h : SameFile held c t) (hm : t.sin = c.sin ∨ t.sin.dirty = true) :
    Kept held c t := ⟨h.apart, h.mapped, hm⟩

theorem SameFile.kept_size (h : SameFile held c t) (n : Nat) :
    Kept held c (nehcpu.kernel.fs.set_size n t) :=
  ⟨⟨h.ino, h.super, h.kept⟩, h.mapped.set_size n, Or.inr rfl⟩

/-- An access past the end of the file stops the machine. -/
theorem wp_piece_past {write : Bool} {buf : List Byte} {m : SfsM (List Byte)} {i off size : Nat}
    {P : List Byte → Call → Prop} {E : Int → Call → Prop} (hp : Piece env write buf m i off size)
    (hi : c.blocks < i) : Wp m P E True c := by
  have hload : ∀ {P : Nat → Call → Prop},
      Wp (sfs_bmap_load_nolock (env.dop_io i) (env.ino i) i) P E True c := by
    intro P
    unfold sfs_bmap_load_nolock
    simp only [wp_bind, wp_get, wp_check]
    rw [if_neg (Nat.not_le.2 hi)]
    trivial
  cases hp with
  | part i off size =>
    rw [io_part, wp_bind]
    exact hload
  | whole i =>
    rw [io_whole, wp_bind]
    exact hload

/-- The state in the middle of a transfer that began in `c`, `n` bytes after `offset`. -/
structure Underway (held : Nat → Prop) (c : Call) (offset : Nat) (done : List Byte) (t : Call) :
    Prop extends SameFile held c t where
  le : c.blocks ≤ t.blocks
  same : t.blocks = c.blocks → t.sin = c.sin
  marked : c.blocks < t.blocks → t.sin.dirty = true ∨ c.sin.din.size < offset + done.length

/-- Where it ends, the inode is as it was, is marked, or is about to be. -/
def Halted (held : Nat → Prop) (c : Call) (offset : Nat) (done : List Byte) (t : Call) : Prop :=
  SameFile held c t ∧
    (t.sin = c.sin ∨ t.sin.dirty = true ∨ c.sin.din.size < offset + done.length)

theorem Underway.halted {offset : Nat} {done : List Byte} (h : Underway held c offset done t) :
    Halted held c offset done t := by
  refine ⟨h.toSameFile, ?_⟩
  rcases Nat.lt_or_eq_of_le h.le with hlt | heq
  · exact Or.inr (h.marked hlt)
  · exact Or.inl (h.same heq.symm)

theorem wp_io_kept {write : Bool} {buf : List Byte} {offset endpos : Nat} (h : Mapped held c)
    (hclean : c.sin.dirty = true ∨ c.sin.din.size ≤ c.blocks * SFS_BLKSIZE)
    (hlt : offset < endpos) (hmax : endpos ≤ MAX_MAPPED_SIZE)
    (hclear : ClearsBelow env c (blocksFor endpos))
    (hfirst : MarksGrowth c ∨ endpos ≤ c.blocks * SFS_BLKSIZE ∨
      (env.dop_io c.blocks .dataRead = 0 ∧ env.dop_io c.blocks .dataWrite = 0) ∨
      c.sin.din.size < c.blocks * SFS_BLKSIZE)
    (hbuf : write = true → endpos - offset ≤ buf.length) {E : Int → Call → Prop} :
    Wp (io_body env write buf offset endpos) (fun r t => Halted held c offset r.2 t) E True c := by
  have hbody : Wp (io_body env write buf offset endpos)
      (fun r t => r.1 = 0 ∧ r.2.length = endpos - offset ∧ Underway held c offset r.2 t ∨
        Halted held c offset r.2 t) E True c := by
    apply wp_io_body hlt ⟨SameFile.refl h, Nat.le_refl _, fun _ => rfl,
      fun hb => absurd hb (Nat.lt_irrefl _)⟩
    intro m i off size done t hp hpos hsize hfit hle ht
    rcases Nat.lt_or_ge t.blocks i with hpast | hi
    · exact wp_piece_past hp hpast
    have hlast : i < blocksFor endpos := by
      apply Nat.lt_of_not_le
      intro hn
      have hb := blocksFor_le.1 hn
      omega
    have hin : i < MAX_MAPPED := Nat.lt_of_lt_of_le hlast (blocksFor_le.2 hmax)
    have hble := ht.le
    have hdrop : write = true → size ≤ (buf.drop done.length).length := by
      intro hw
      have hb := hbuf hw
      rw [List.length_drop]
      omega
    apply Wp.mono (wp_piece ht.mapped hp hi hin hsize hfit hdrop fun he =>
      hclear i (by omega) hlast) _ _ id
    · rintro bs u ⟨hr, hlen, -⟩
      have hbl := hr.blocks
      have hlength : (done ++ bs).length = done.length + size := by rw [List.length_append, hlen]
      refine ⟨hlen, ht.toSameFile.trans hr.same_file, by omega, ?_, ?_⟩
      · intro he
        exact (hr.same (by omega)).trans (ht.same (by omega))
      · intro _
        rw [hlength]
        rcases Nat.lt_or_eq_of_le hi with hold | hnew
        · rw [hr.same hold]
          exact (ht.marked (by omega)).imp_right fun hs => by omega
        · rcases Nat.lt_or_eq_of_le hble with hb | hb
          · rcases ht.marked hb with hd | hs
            · exact Or.inl ((hr.dirty hnew).2 (Or.inl hd))
            · exact Or.inr (by omega)
          · -- the first new block: its data move the end of the file
            rcases hclean with hd | hs
            · left
              apply (hr.dirty hnew).2
              rw [ht.same hb.symm]
              exact Or.inl hd
            · right
              have hm : i * SFS_BLKSIZE = c.blocks * SFS_BLKSIZE := by rw [hnew, ← hb]
              omega
    · rintro e u ⟨hu | ⟨hdata, b, hl⟩, -⟩
      · have hh := ht.halted
        exact ⟨ht.toSameFile.trans (hu.same_file ht.mapped), by rw [hu.sin]; exact hh.2⟩
      · refine ⟨ht.toSameFile.trans hl.toReached.same_file, ?_⟩
        rcases Nat.lt_or_eq_of_le hi with hold | hnew
        · rw [hl.same hold]
          exact ht.halted.2
        · rcases Nat.lt_or_eq_of_le hble with hb | hb
          · right
            rcases ht.marked hb with hd | hs
            · exact Or.inl ((hl.dirty hnew).2 (Or.inl hd))
            · exact Or.inr hs
          · -- the first new block, whose data did not go through
            have hic : i = c.blocks := hnew.trans hb.symm
            have hm : i * SFS_BLKSIZE = c.blocks * SFS_BLKSIZE := by rw [hic]
            right
            rcases hfirst with hg | hend | hok | hshort
            · left
              apply (hl.dirty hnew).2
              rw [ht.same hb.symm]
              unfold MarksGrowth at hg
              rw [hb] at hg
              exact hg
            · omega
            · rw [hic] at hdata
              exact absurd hdata (by rw [hok.1, hok.2]; simp)
            · right
              omega
  apply Wp.mono hbody _ (fun _ _ he => he) id
  rintro r t (⟨-, -, hu⟩ | hh)
  · exact hu.halted
  · exact hh

theorem off_add_le {offset : Int} {len : Nat} (h0 : 0 ≤ offset) :
    off_add offset len ≤ offset + len := by
  unfold off_add
  rw [Int.bmod_def]
  split <;> omega

theorem io_end_le {size len endpos : Nat} {offset : Int} {write : Bool}
    (h : io_end size offset len write = .ok endpos) :
    offset.toNat < endpos ∧ endpos - offset.toNat ≤ len := by
  unfold io_end at h
  simp only at h
  by_cases hguard : offset < 0 ∨ (SFS_MAX_FILE_SIZE : Int) ≤ offset ∨ off_add offset len < offset
  · rw [if_pos hguard] at h
    cases h
  · have hle := @off_add_le offset len (by omega)
    rw [if_neg hguard] at h
    split at h
    · cases h
    · cases write with
      | true =>
        simp only [if_true, Except.ok.injEq] at h
        omega
      | false =>
        simp only [Bool.false_eq_true, if_false] at h
        split at h
        · cases h
        · simp only [Except.ok.injEq] at h
          omega

theorem wp_io_nolock_kept {write : Bool} {buf : List Byte} {offset : Int} {len : Nat}
    {E : Int → Call → Prop} (h : Mapped held c)
    (hclean : c.sin.dirty = true ∨ c.sin.din.size ≤ c.blocks * SFS_BLKSIZE)
    (hharm : IoHarmless env c offset len write) (hbuf : write = true → len ≤ buf.length) :
    Wp (sfs_io_nolock env buf offset len write) (fun _ t => Kept held c t) E True c := by
  simp only [sfs_io_nolock, wp_bind, wp_get, wp_check]
  split
  · cases hend : io_end c.sin.din.size offset len write with
    | error ret => exact Kept.refl h
    | ok endpos =>
      obtain ⟨hlt, hle⟩ := io_end_le hend
      obtain ⟨hmax, hclear, hfirst⟩ := hharm endpos hend
      simp only [wp_bind, wp_get, wp_ite, wp_modify, wp_pure]
      apply Wp.mono (wp_io_kept h hclean hlt hmax hclear hfirst fun hw =>
        Nat.le_trans hle (hbuf hw)) _ (fun _ _ he => he) id
      rintro ⟨ret, done⟩ t ⟨hs, hm⟩
      simp only at hs hm ⊢
      split
      · exact hs.kept_size _
      · -- the size stays, so the transfer has not moved the end
        apply hs.kept_call
        rcases hm with hm | hm | hm
        · exact Or.inl hm
        · exact Or.inr hm
        · rw [← hs.size] at hm
          contradiction
  · trivial

theorem wp_truncfile_kept {len : Int} (h : Mapped held c) (hharm : TruncHarmless env c len) :
    Wp (sfs_truncfile env len) (fun _ t => Kept held c t) (fun _ t => Kept held c t) True c := by
  have hdef : c.sin.din.blocks = c.blocks := rfl
  unfold sfs_truncfile
  rw [wp_ite]
  by_cases hguard : len < 0 ∨ (SFS_MAX_FILE_SIZE : Int) < len
  · rw [if_pos hguard]
    exact Kept.refl h
  simp only [if_neg hguard, wp_bind, wp_get, wp_check, wp_ite, wp_modify, roundup_div_eq]
  by_cases hsame : c.sin.din.size = len.toNat
  · rw [if_pos hsame]
    split
    · exact Kept.refl h
    · trivial
  rw [if_neg hsame]
  have hend : ∀ t, SameFile held c t → if t.sin.din.blocks = blocksFor len.toNat then
      Kept held c (nehcpu.kernel.fs.set_size len.toNat t) else True := by
    intro t hs
    split
    · exact hs.kept_size _
    · trivial
  by_cases hgrow : c.blocks < blocksFor len.toNat
  · obtain ⟨hmax, hclear, hfirst⟩ := hharm (by omega) (by omega) hgrow
    have hfit : blocksFor len.toNat ≤ MAX_MAPPED := by
      apply blocksFor_le.2
      unfold MAX_MAPPED_SIZE at hmax
      omega
    have hn : c.blocks + (blocksFor len.toNat - c.blocks) = blocksFor len.toNat := by omega
    rw [if_pos hgrow]
    apply Wp.mono (wp_grow h (by omega) fun i hi hlt => hclear i hi (by omega)) _ _ id
    · rintro _ t ⟨hl, -⟩
      exact hend t hl.toSameFile
    · rintro e t ⟨u, hl, hu, hlt, hs⟩
      rw [hn] at hlt
      apply (hl.toSameFile.trans (hu.same_file hl.mapped)).kept_call
      rw [hu.sin]
      rcases Nat.lt_or_eq_of_le hl.le with hb | hb
      · -- a block was added before the loop stopped
        right
        by_cases hg : MarksGrowth c
        · exact hl.marked hb hg
        · exfalso
          have hge : SFS_NDIRECT ≤ c.blocks := Nat.not_lt.1 fun hd => hg (Or.inr (Or.inl hd))
          have hind : c.sin.din.indirect ≠ 0 := fun h0 => hg (Or.inr (Or.inr h0))
          rcases hfirst with hg' | hfull | hlink | ⟨hroom, hok⟩
          · exact hg hg'
          · have h1 := hl.room u.blocks (Nat.le_refl _)
            have h2 := need_mono c (show c.blocks + 1 ≤ u.blocks from hb)
            have h3 : need u u.blocks = 0 := by
              unfold need
              rw [if_neg fun hn => hl.mapped.indirect_ne hn.2 hn.1]
              omega
            omega
          · exact hlink (hl.answers hb hge hind)
          · have h1 := hl.room (blocksFor len.toNat) (by omega)
            have h2 := need_mono u (show u.blocks + 1 ≤ blocksFor len.toNat from hlt)
            rcases hs with hs | ⟨a, ha⟩
            · omega
            · exact ha (hok _ a hb hlt)
      · exact Or.inl (hl.same hb.symm)
  · rw [if_neg hgrow]
    apply Wp.mono (wp_shrink h (by omega)) _ _ id
    · rintro _ t ⟨hs, -, -⟩
      exact hend t hs
    · rintro e t ⟨hs, hm, -⟩
      exact hs.kept_call hm

/-- A harmless call keeps the accounts, whether it fails or not. -/
theorem wp_call_kept {op : FileOp} (h : Mapped held c)
    (hclean : c.sin.dirty = true ∨ c.sin.din.size ≤ c.blocks * SFS_BLKSIZE)
    (hharm : op.Harmless env c) :
    Wp (op.run env) (fun _ t => Kept held c t) (fun _ t => Kept held c t) True c := by
  cases op with
  | read offset len => exact wp_io_nolock_kept h hclean hharm fun hw => absurd hw Bool.false_ne_true
  | write offset data => exact wp_io_nolock_kept h hclean hharm fun _ => Nat.le_refl _
  | truncate len =>
    simp only [FileOp.run, wp_bind, wp_attempt]
    exact Wp.mono (wp_truncfile_kept h hharm) (fun _ _ ht => ht) (fun _ _ ht => ht) id
  | tryseek pos =>
    simp only [FileOp.run, sfs_tryseek, wp_bind, wp_attempt, wp_ite, wp_get, wp_pure, wp_throw]
    split
    · exact Kept.refl h
    · split
      · rename_i hlt
        exact Wp.mono (wp_truncfile_kept h (hharm hlt)) (fun _ _ ht => ht) (fun _ _ ht => ht) id
      · exact Kept.refl h

end

/-! ## The mounted file system -/

/-- The file system with its inodes, by number. An inode that is not loaded is as the disk has
it. -/
structure Volume where
  sfs : sfs_fs
  sins : Nat → Option sfs_inode

/-- A call on a file: the inode, what is around the call, and the call. -/
structure Input where
  ino : Nat
  env : Around
  op : FileOp

/-- Only regular files have these calls. There is no next state where the machine stops. -/
def Volume.call (v : Volume) (i : Input) : Option Volume :=
  match v.sins i.ino with
  | none => some v
  | some sin =>
    if sin.din.type = SFS_TYPE_FILE then
      match i.op.run i.env ⟨v.sfs, sin⟩ with
      | .ok _ t => some ⟨t.sfs, update v.sins i.ino (some t.sin)⟩
      | .fail _ t => some ⟨t.sfs, update v.sins i.ino (some t.sin)⟩
      | .stop => none
    else some v

def step (v : Option Volume) (i : Input) : Option Volume := v.bind fun v => v.call i

/-- A call that keeps the accounts, in the state before it. -/
def Input.Harmless (v : Option Volume) (i : Input) : Prop :=
  ∀ w sin, v = some w → w.sins i.ino = some sin → i.op.Harmless i.env ⟨w.sfs, sin⟩

/-- The super block, the bitmap and the blocks of the inodes. -/
def Volume.Metadata (v : Volume) (b : Nat) : Prop :=
  b = SFS_BLKN_SUPER ∨
    (SFS_BLKN_FREEMAP ≤ b ∧
      b < SFS_BLKN_FREEMAP + ((v.sfs.super.blocks + 32767) >>> SFS_BLKBITS_SHIFT)) ∨
    (v.sins b).isSome

/-- The block is in the block map of the inode. -/
def Volume.Reaches (v : Volume) (ino b : Nat) : Prop :=
  ∃ sin, v.sins ino = some sin ∧ b ∈ layout ⟨v.sfs, sin⟩

/-- The accounts: each block in use is metadata or is reached from one inode, the free blocks and
the blocks of each inode are counted, and an inode that the disk has otherwise is marked. -/
structure Accounted (v : Volume) : Prop where
  used : ∀ b, b < v.sfs.super.blocks → b ∉ v.sfs.freemap.freeSet →
    v.Metadata b ∨ ∃! ino, v.Reaches ino b
  unused : v.sfs.super.unused_blocks = v.sfs.freemap.freeSet.card
  blocks : ∀ ino sin, v.sins ino = some sin →
    sin.din.blocks = ((Finset.range MAX_MAPPED).filter fun i => bmap ⟨v.sfs, sin⟩ i ≠ 0).card
  marked : ∀ ino sin, v.sins ino = some sin → sin.din ≠ sfs_disk_inode.load (v.sfs.disk ino) →
    sin.dirty = true

/-- What stands in the way of an inode: the metadata and the blocks of the others. -/
def Volume.Held (v : Volume) (ino b : Nat) : Prop :=
  v.Metadata b ∨ ∃ other, other ≠ ino ∧ v.Reaches other b

/-- A file system in order. -/
structure VolumeOk (v : Volume) : Prop where
  mapped : ∀ ino sin, v.sins ino = some sin → Mapped (v.Held ino) ⟨v.sfs, sin⟩
  ino : ∀ ino sin, v.sins ino = some sin → sin.ino = ino
  marked : ∀ ino sin, v.sins ino = some sin → sin.dirty = true ∨
    sin.din = sfs_disk_inode.load (v.sfs.disk ino) ∧ sin.din.size ≤ sin.din.blocks * SFS_BLKSIZE
  root : (v.sins 1).isSome

section

variable {v w : Volume} {ino : Nat} {sin : sfs_inode}

theorem VolumeOk.accounted (h : VolumeOk v) : Accounted v where
  used := by
    intro b hb hused
    obtain ⟨root, hroot⟩ := Option.isSome_iff_exists.1 h.root
    have hone : ∀ x y, v.Reaches x b → v.Reaches y b → y = x := by
      rintro x y ⟨sx, hx, hbx⟩ hy
      by_contra hne
      exact ((h.mapped x sx hx).block hbx).2.2.2 (Or.inr ⟨y, hne, hy⟩)
    rcases (h.mapped 1 root hroot).ledger.cover b hb with (hm | ⟨x, -, hx⟩) | hf | hl
    · exact Or.inl hm
    · exact Or.inr ⟨x, hx, fun y hy => hone x y hx hy⟩
    · exact absurd hf hused
    · have hr : v.Reaches 1 b := ⟨root, hroot, hl⟩
      exact Or.inr ⟨1, hr, fun y hy => hone 1 y hr hy⟩
  unused := by
    obtain ⟨root, hroot⟩ := Option.isSome_iff_exists.1 h.root
    exact (h.mapped 1 root hroot).free.count
  blocks := by
    intro x sx hx
    have hm := h.mapped x sx hx
    have hset : (Finset.range MAX_MAPPED).filter (fun i => bmap ⟨v.sfs, sx⟩ i ≠ 0) =
        Finset.range sx.din.blocks := by
      ext i
      rw [Finset.mem_filter, Finset.mem_range, Finset.mem_range]
      constructor
      · rintro ⟨hi, hne⟩
        apply Nat.lt_of_not_le
        exact fun hle => hne (hm.none i hle hi)
      · exact fun hi => ⟨Nat.lt_of_lt_of_le hi hm.bound, hm.bmap_ne hi⟩
    rw [hset, Finset.card_range]
  marked := by
    intro x sx hx hne
    rcases h.marked x sx hx with hd | ⟨hsame, -⟩
    · exact hd
    · exact absurd hsame hne

/-- The map of an inode whose indirect block holds the same is the same. -/
theorem map_congr {fs fs' : sfs_fs}
    (hd : sin.din.indirect ≠ 0 → fs'.disk sin.din.indirect = fs.disk sin.din.indirect) :
    bmap ⟨fs', sin⟩ = bmap ⟨fs, sin⟩ ∧ layout ⟨fs', sin⟩ = layout ⟨fs, sin⟩ := by
  have hmap : bmap ⟨fs', sin⟩ = bmap ⟨fs, sin⟩ := by
    funext i
    by_cases h0 : sin.din.indirect = 0
    · simp [bmap, h0]
    · simp [bmap, hd h0]
  refine ⟨hmap, ?_⟩
  unfold layout
  rw [hmap]
  rfl

theorem Volume.metadata_ino (h : v.sins ino = some sin) : v.Metadata ino := by
  right
  right
  rw [h]
  rfl

/-- Another inode than the one that a call worked on is in order with what it left. -/
theorem Mapped.other {held held' held₁ : Nat → Prop} {t : Call} {fs : sfs_fs}
    (h : Mapped held₁ ⟨fs, sin⟩) (ht : Mapped held t) (hl : layout ⟨t.sfs, sin⟩ = layout ⟨fs, sin⟩)
    (hmap : bmap ⟨t.sfs, sin⟩ = bmap ⟨fs, sin⟩)
    (hsuper : t.sfs.super.blocks = fs.super.blocks)
    (hheld : ∀ b, held b → held' b ∨ b ∈ layout ⟨fs, sin⟩)
    (hown : ∀ b, b ∈ layout ⟨fs, sin⟩ → held b)
    (hheld' : ∀ b, held' b → b ∈ layout t ∨ held b ∧ held₁ b)
    (hnew : ∀ b, b ∈ layout t → held' b)
    (hzero : held' 0) (hino : held' sin.ino) : Mapped held' ⟨t.sfs, sin⟩ where
  free := ht.free.congr rfl rfl
  ledger :=
    { nodup := by
        rw [hl]
        exact h.ledger.nodup
      inside := by
        intro b hb
        rw [hl] at hb
        have hlt := h.ledger.inside b hb
        rw [← hsuper] at hlt
        exact hlt
      apart := by
        intro b hb
        rw [hl] at hb
        refine ⟨?_, fun hf => ht.ledger.free_held b hf (hown b hb)⟩
        intro hh
        rcases hheld' b hh with hm | hm
        · exact (ht.ledger.apart b hm).1 (hown b hb)
        · exact (h.ledger.apart b hb).1 hm.2
      free_held := by
        intro b hf hh
        rcases hheld' b hh with hm | hm
        · exact (ht.ledger.apart b hm).2 hf
        · exact ht.ledger.free_held b hf hm.1
      cover := by
        intro b hb
        rcases ht.ledger.cover b hb with hh | hf | hm
        · rcases hheld b hh with hh | hm
          · exact Or.inl hh
          · right
            right
            rw [hl]
            exact hm
        · exact Or.inr (Or.inl hf)
        · exact Or.inl (hnew b hm) }
  bound := h.bound
  none := by
    rw [hmap]
    exact h.none
  zero := hzero
  own := hino

/-- An inode that a call has kept is in order with all others after it. -/
theorem VolumeOk.kept (h : VolumeOk v) (hs : v.sins ino = some sin) {t : Call}
    (hk : Kept (v.Held ino) ⟨v.sfs, sin⟩ t) : VolumeOk ⟨t.sfs, update v.sins ino (some t.sin)⟩ := by
  set w : Volume := ⟨t.sfs, update v.sins ino (some t.sin)⟩
  have hself : w.sins ino = some t.sin := update_self _ _ _
  have hother : ∀ y, y ≠ ino → w.sins y = v.sins y := fun y hy => update_of_ne hy _ _
  have hmeta : ∀ b, w.Metadata b ↔ v.Metadata b := by
    intro b
    have hsome : (w.sins b).isSome = (v.sins b).isSome := by
      by_cases hb : b = ino
      · subst hb
        rw [hself, hs]
        rfl
      · rw [hother b hb]
    have hsuper : w.sfs.super.blocks = v.sfs.super.blocks := hk.super
    unfold Volume.Metadata
    rw [hsome, hsuper]
  -- the others have their blocks as before
  have hmaps : ∀ y sy, y ≠ ino → v.sins y = some sy →
      bmap ⟨t.sfs, sy⟩ = bmap ⟨v.sfs, sy⟩ ∧ layout ⟨t.sfs, sy⟩ = layout ⟨v.sfs, sy⟩ := by
    intro y sy hy hsy
    apply map_congr
    intro h0
    exact hk.kept _ (Or.inr ⟨y, hy, sy, hsy, indirect_mem_layout h0⟩)
  have hreach : ∀ y b, y ≠ ino → (w.Reaches y b ↔ v.Reaches y b) := by
    intro y b hy
    constructor
    · rintro ⟨sy, hsy, hb⟩
      rw [hother y hy] at hsy
      exact ⟨sy, hsy, (hmaps y sy hy hsy).2 ▸ hb⟩
    · rintro ⟨sy, hsy, hb⟩
      refine ⟨sy, (hother y hy).trans hsy, ?_⟩
      show b ∈ layout ⟨t.sfs, sy⟩
      rw [(hmaps y sy hy hsy).2]
      exact hb
  have hreachSelf : ∀ b, w.Reaches ino b ↔ b ∈ layout t := by
    intro b
    constructor
    · rintro ⟨st, hst, hb⟩
      rw [hself] at hst
      cases hst
      exact hb
    · exact fun hb => ⟨t.sin, hself, hb⟩
  refine ⟨?_, ?_, ?_, ?_⟩
  · intro y sy hsy
    by_cases hy : y = ino
    · subst hy
      rw [hself] at hsy
      cases hsy
      have hheld : w.Held y = v.Held y := by
        funext b
        apply propext
        unfold Volume.Held
        rw [hmeta]
        constructor
        · exact Or.imp_right fun ⟨z, hz, hb⟩ => ⟨z, hz, (hreach z b hz).1 hb⟩
        · exact Or.imp_right fun ⟨z, hz, hb⟩ => ⟨z, hz, (hreach z b hz).2 hb⟩
      rw [hheld]
      exact hk.mapped
    · have hsy' : v.sins y = some sy := (hother y hy).symm.trans hsy
      have hm := hmaps y sy hy hsy'
      apply (h.mapped y sy hsy').other hk.mapped hm.2 hm.1 hk.super
      · rintro b (hb | ⟨z, hz, hb⟩)
        · exact Or.inl (Or.inl ((hmeta b).2 hb))
        · by_cases hzy : z = y
          · subst hzy
            obtain ⟨sz, hsz, hb⟩ := hb
            rw [hsy'] at hsz
            cases hsz
            exact Or.inr hb
          · exact Or.inl (Or.inr ⟨z, hzy, (hreach z b hz).2 hb⟩)
      · exact fun b hb => Or.inr ⟨y, hy, sy, hsy', hb⟩
      · rintro b (hb | ⟨z, hz, hb⟩)
        · exact Or.inr ⟨Or.inl ((hmeta b).1 hb), Or.inl ((hmeta b).1 hb)⟩
        · by_cases hzi : z = ino
          · subst hzi
            exact Or.inl ((hreachSelf b).1 hb)
          · have hb := (hreach z b hzi).1 hb
            exact Or.inr ⟨Or.inr ⟨z, hzi, hb⟩, Or.inr ⟨z, hz, hb⟩⟩
      · exact fun b hb => Or.inr ⟨ino, Ne.symm hy, (hreachSelf b).2 hb⟩
      · exact Or.inl (Or.inl rfl)
      · rw [h.ino y sy hsy']
        exact Or.inl (Volume.metadata_ino hsy)
  · intro y sy hsy
    by_cases hy : y = ino
    · subst hy
      rw [hself] at hsy
      cases hsy
      exact hk.ino.trans (h.ino y sin hs)
    · exact h.ino y sy ((hother y hy).symm.trans hsy)
  · intro y sy hsy
    by_cases hy : y = ino
    · subst hy
      rw [hself] at hsy
      cases hsy
      rcases hk.marked with hsame | hd
      · have hdisk : t.sfs.disk y = v.sfs.disk y :=
          hk.kept y (Or.inl (Volume.metadata_ino hs))
        show t.sin.dirty = true ∨ t.sin.din = sfs_disk_inode.load (t.sfs.disk y) ∧ _
        rw [hsame, hdisk]
        exact h.marked y sin hs
      · exact Or.inl hd
    · have hsy' : v.sins y = some sy := (hother y hy).symm.trans hsy
      have hdisk : t.sfs.disk y = v.sfs.disk y :=
        hk.kept y (Or.inl (Volume.metadata_ino hsy'))
      show sy.dirty = true ∨ sy.din = sfs_disk_inode.load (t.sfs.disk y) ∧ _
      rw [hdisk]
      exact h.marked y sy hsy'
  · by_cases hy : 1 = ino
    · rw [hy, hself]
      rfl
    · rw [hother 1 hy]
      exact h.root

/-- A harmless call takes a file system in order to one in order, whatever fails in it. -/
theorem VolumeOk.call {i : Input} (h : VolumeOk v) (hh : i.Harmless (some v))
    (hw : v.call i = some w) : VolumeOk w := by
  unfold Volume.call at hw
  cases hs : v.sins i.ino with
  | none =>
    simp only [hs, Option.some.injEq] at hw
    exact hw ▸ h
  | some sin =>
    simp only [hs] at hw
    by_cases hfile : sin.din.type = SFS_TYPE_FILE
    · rw [if_pos hfile] at hw
      have hclean : sin.dirty = true ∨ sin.din.size ≤ sin.din.blocks * SFS_BLKSIZE :=
        (h.marked i.ino sin hs).imp_right fun hm => hm.2
      have hcall := wp_call_kept (c := ⟨v.sfs, sin⟩) (h.mapped i.ino sin hs) hclean
        (hh v sin rfl hs)
      unfold Wp at hcall
      cases hrun : i.op.run i.env ⟨v.sfs, sin⟩ with
      | ok r t =>
        rw [hrun] at hcall hw
        cases hw
        exact h.kept hs hcall
      | fail e t =>
        rw [hrun] at hcall hw
        cases hw
        exact h.kept hs hcall
      | stop =>
        rw [hrun] at hw
        cases hw
    · rw [if_neg hfile, Option.some.injEq] at hw
      exact hw ▸ h

end

/-- In every run of harmless calls on a file system in order, whatever device operations fail in
them, the accounts are right in every state that is reached. -/
theorem accounts_kept {v : Volume} (h : VolumeOk v) (is : List Input)
    (hr : StepsMeet step (fun w i => i.Harmless w) (some v) is) :
    ∀ w, runFrom step (some v) is = some w → Accounted w := by
  have hstep : ∀ (o : Option Volume) (i : Input), (∀ w, o = some w → VolumeOk w) →
      i.Harmless o → ∀ w, step o i = some w → VolumeOk w := by
    intro o i ho hi w hw
    obtain ⟨u, rfl, hu⟩ := Option.bind_eq_some_iff.1 hw
    exact (ho u rfl).call hi hu
  have hstart : ∀ w, some v = some w → VolumeOk w := by
    intro w hw
    cases hw
    exact h
  have hinv := invariant_of_run hstep hstart hr
  exact fun w hw => (hinv w hw).accounted

/-! ## A small file system -/

/-- The block of an empty inode with one link. -/
def inodeBlock (type : Nat) : Buffer := patch Buffer.zero 4 (leBytes 2 type ++ leBytes 2 1)

def emptyInode (ino type : Nat) : sfs_inode := ⟨sfs_disk_inode.load (inodeBlock type), ino, false⟩

/-- Eight blocks with the root and one empty file. -/
def smallVolume : Volume where
  sfs :=
    { super := ⟨8, 4⟩
      super_dirty := false
      freemap := ⟨32, 1, fun _ => 0xF0#32⟩
      disk := update (update (fun _ => Buffer.zero) 1 (inodeBlock SFS_TYPE_DIR)) 3
        (inodeBlock SFS_TYPE_FILE) }
  sins i :=
    if i = 1 then some (emptyInode 1 SFS_TYPE_DIR)
    else if i = 3 then some (emptyInode 3 SFS_TYPE_FILE) else none

theorem inodeBlock_zero (type : Nat) {k off : Nat} (h : off + k ≤ 4 ∨ 8 ≤ off) :
    leAt k (inodeBlock type) off = 0 := by
  unfold inodeBlock
  rw [leAt_patch_of_apart, leAt_zero]
  rw [List.length_append, leBytes_length, leBytes_length]
  omega

theorem emptyInode_layout (fs : sfs_fs) (ino type : Nat) :
    layout ⟨fs, emptyInode ino type⟩ = [] ∧ ∀ i, bmap ⟨fs, emptyInode ino type⟩ i = 0 := by
  have hblocks : (emptyInode ino type).din.blocks = 0 := inodeBlock_zero type (Or.inr (by omega))
  have hind : (emptyInode ino type).din.indirect = 0 := inodeBlock_zero type (Or.inr (by omega))
  constructor
  · simp [layout, indexBlock, Call.blocks, hblocks, hind]
  · intro i
    unfold bmap
    simp only [hind, if_true]
    split
    · rename_i hi
      show (if i < SFS_NDIRECT then leAt 4 (inodeBlock type) (12 + 4 * i) else 0) = 0
      rw [if_pos hi, inodeBlock_zero type (Or.inr (by omega))]
    · rfl

theorem smallVolume_sins {ino : Nat} {sin : sfs_inode} (h : smallVolume.sins ino = some sin) :
    ∃ type, sin = emptyInode ino type ∧ (ino = 1 ∨ ino = 3) ∧
      smallVolume.sfs.disk ino = inodeBlock type := by
  simp only [smallVolume] at h
  split at h
  · rename_i hi
    subst hi
    cases h
    exact ⟨_, rfl, Or.inl rfl, rfl⟩
  · split at h
    · rename_i hi
      subst hi
      cases h
      exact ⟨_, rfl, Or.inr rfl, rfl⟩
    · cases h

theorem smallVolume_held (ino b : Nat) (hb : b < 8) : smallVolume.Held ino b ↔ b < 4 := by
  have hnone : ∀ other, ¬ smallVolume.Reaches other b := by
    rintro other ⟨sin, hs, hm⟩
    obtain ⟨type, rfl, -⟩ := smallVolume_sins hs
    rw [(emptyInode_layout _ _ _).1] at hm
    cases hm
  have hmeta : ∀ b, b < 8 → (smallVolume.Metadata b ↔ b < 4) := by
    unfold Volume.Metadata
    decide
  constructor
  · rintro (hm | ⟨other, -, hr⟩)
    · exact (hmeta b hb).1 hm
    · exact absurd hr (hnone other)
  · exact fun hlt => Or.inl ((hmeta b hb).2 hlt)

theorem smallVolume_free (b : Nat) : b ∈ smallVolume.sfs.freemap.freeSet ↔ 4 ≤ b ∧ b < 8 := by
  have hfree : smallVolume.sfs.freemap.freeSet = {4, 5, 6, 7} := by decide +kernel
  rw [hfree]
  simp only [Finset.mem_insert, Finset.mem_singleton]
  omega

theorem smallVolume_ok : VolumeOk smallVolume where
  mapped := by
    intro ino sin hs
    obtain ⟨type, rfl, hino, -⟩ := smallVolume_sins hs
    have hempty := emptyInode_layout smallVolume.sfs ino type
    have hblocks : (emptyInode ino type).din.blocks = 0 := inodeBlock_zero type (Or.inr (by omega))
    have hcard : (4 : Nat) = smallVolume.sfs.freemap.freeSet.card := by decide +kernel
    have hwide : (8 : Nat) ≤ 2 ^ 32 := by decide
    have hin : (8 : Nat) ≤ 32 := by decide
    exact
      { free :=
          { nbits := rfl
            fits := hin
            narrow := hwide
            within := by
              intro b hb
              have hr := (smallVolume_free b).1 hb
              exact ⟨by omega, hr.2⟩
            count := hcard }
        ledger :=
          { nodup := by
              rw [hempty.1]
              exact List.nodup_nil
            inside := by
              rw [hempty.1]
              simp
            apart := by
              rw [hempty.1]
              simp
            free_held := by
              intro b hb
              have hr := (smallVolume_free b).1 hb
              rw [smallVolume_held ino b hr.2]
              omega
            cover := by
              intro b hb
              have hb8 : b < 8 := hb
              rw [smallVolume_held ino b hb8]
              by_cases hlt : b < 4
              · exact Or.inl hlt
              · exact Or.inr (Or.inl ((smallVolume_free b).2 ⟨by omega, hb8⟩)) }
        bound := by
          show (emptyInode ino type).din.blocks ≤ MAX_MAPPED
          rw [hblocks]
          exact Nat.zero_le _
        none := fun i _ _ => hempty.2 i
        zero := Or.inl (Or.inl rfl)
        own := Or.inl (Volume.metadata_ino hs) }
  ino := by
    intro ino sin hs
    obtain ⟨type, rfl, -⟩ := smallVolume_sins hs
    rfl
  marked := by
    intro ino sin hs
    obtain ⟨type, rfl, -, hd⟩ := smallVolume_sins hs
    right
    rw [hd]
    have hsize : (emptyInode ino type).din.size = 0 := inodeBlock_zero type (Or.inl (by omega))
    exact ⟨rfl, hsize ▸ Nat.zero_le _⟩
  root := rfl

/-- A device that fails in the accesses of one kind. -/
def failing (access : Access) : Around := ⟨fun _ a => if a = access then 5 else 0, fun _ => 0⟩

/-- A write whose data do not go through, on an inode that its new block has marked. -/
theorem accounts_kept_smallVolume :
    ∃ w, runFrom step (some smallVolume) [⟨3, failing .dataWrite, .write 0 [1]⟩] = some w ∧
      Accounted w := by
  have hrun : (runFrom step (some smallVolume)
      [⟨3, failing .dataWrite, .write 0 [1]⟩]).isSome = true := by decide +kernel
  obtain ⟨w, hw⟩ := Option.isSome_iff_exists.1 hrun
  refine ⟨w, hw, accounts_kept smallVolume_ok [⟨3, failing .dataWrite, .write 0 [1]⟩] ?_ w hw⟩
  refine ⟨?_, trivial⟩
  intro u sin hu hs endpos hend
  cases hu
  obtain ⟨type, rfl, -⟩ := smallVolume_sins hs
  have hsize : (emptyInode 3 type).din.size = 0 := inodeBlock_zero type (Or.inl (by omega))
  have hblocks : (emptyInode 3 type).din.blocks = 0 := inodeBlock_zero type (Or.inr (by omega))
  have hone : io_end 0 0 1 true = .ok 1 := by decide +kernel
  have hend' : io_end 0 0 1 true = .ok endpos := hsize ▸ hend
  rw [hone, Except.ok.injEq] at hend'
  subst hend'
  refine ⟨by decide, fun _ _ _ => ⟨rfl, rfl⟩, Or.inl (Or.inr (Or.inl ?_))⟩
  show (emptyInode 3 type).din.blocks < SFS_NDIRECT
  rw [hblocks]
  decide

/-- The block that could not be cleared is in use, and nobody has it. -/
theorem failed_clear_run :
    ∃ r t, (FileOp.write 0 [1]).run (failing .clear) ⟨smallVolume.sfs, emptyInode 3 SFS_TYPE_FILE⟩ =
      .ok r t ∧ t.sfs.freemap.bit 4 = false ∧ t.sfs.super.blocks = 8 ∧
        t.sin.din.blocks = 0 ∧ t.sin.din.indirect = 0 :=
  ⟨_, _, rfl, by decide +kernel, by decide +kernel, by decide +kernel, by decide +kernel⟩

theorem failed_clear_loses_block :
    ¬ ∀ (v : Volume) (is : List Input), VolumeOk v →
      ∀ w, runFrom step (some v) is = some w → Accounted w := by
  intro h
  obtain ⟨r, t, hrun, hbit, hsuper, hblocks, hind⟩ := failed_clear_run
  have hfile : (emptyInode 3 SFS_TYPE_FILE).din.type = SFS_TYPE_FILE := by decide +kernel
  have hcall : runFrom step (some smallVolume) [⟨3, failing .clear, .write 0 [1]⟩] =
      some ⟨t.sfs, update smallVolume.sins 3 (some t.sin)⟩ := by
    show smallVolume.call ⟨3, failing .clear, .write 0 [1]⟩ = _
    have hs : smallVolume.sins 3 = some (emptyInode 3 SFS_TYPE_FILE) := rfl
    simp only [Volume.call, hs, if_pos hfile, hrun]
  have hacc := h _ _ smallVolume_ok _ hcall
  have hused : 4 ∉ t.sfs.freemap.freeSet := by
    intro hm
    have hb := ((bitmap.mem_freeSet _ _).1 hm).2
    rw [hbit] at hb
    cases hb
  have hlt : 4 < t.sfs.super.blocks := by
    rw [hsuper]
    decide
  rcases hacc.used 4 hlt hused with hm | ⟨ino, ⟨sin, hs, hl⟩, -⟩
  · -- it is not metadata
    simp only [Volume.Metadata, hsuper] at hm
    rcases hm with hm | hm | hm
    · cases hm
    · exact absurd hm (by decide)
    · rw [update_of_ne (by decide)] at hm
      exact absurd hm (by decide)
  · -- no inode has a block
    have hempty : layout ⟨t.sfs, sin⟩ = [] := by
      by_cases hi : ino = 3
      · subst hi
        simp only [update_self, Option.some.injEq] at hs
        subst hs
        simp [layout, indexBlock, Call.blocks, hblocks, hind]
      · simp only [update_of_ne hi] at hs
        obtain ⟨type, rfl, -⟩ := smallVolume_sins hs
        exact (emptyInode_layout _ _ _).1
    rw [hempty] at hl
    cases hl

end nehcpu.kernel.fs
