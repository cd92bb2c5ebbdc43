-- The files that `sysfile_read` and `sysfile_write` work on: those of the simple file system and of
-- the console. A file of the file system gives to a read what it holds.
import Nehcpu.Kernel.SfsAccount
import Nehcpu.Kernel.SysfileIo

namespace nehcpu.kernel.sysfile

open Function nehcpu.command nehcpu.command.Cmd nehcpu.buffer nehcpu.kernel.fs
open cpu hiding Except
open filetable (Fd file testfd)

/-! ## Errors -/

/-- Where the command fails, the code is that of an error. -/
def Errs {α : Type} (m : SfsM α) : Prop := ∀ c, Wp m (fun _ _ => True) (fun e _ => e ≤ 0) True c

section

variable {α β : Type} {m : SfsM α} {f : α → SfsM β} {env : Around}

theorem Errs.bind (hm : Errs m) (hf : ∀ a, Errs (f a)) : Errs (m >>= f) := by
  intro c
  rw [wp_bind]
  exact Wp.mono (hm c) (fun a t _ => hf a t) (fun _ _ he => he) id

theorem errs_get : Errs Cmd.get := fun _ => trivial

theorem errs_modify (g : Call → Call) : Errs (modify g) := fun _ => trivial

theorem errs_pure (a : α) : Errs (pure a) := fun _ => trivial

theorem errs_check (p : Prop) [Decidable p] : Errs (check p) := by
  intro c
  rw [wp_check]
  split <;> trivial

theorem Errs.ite {p : Prop} [Decidable p] {n : SfsM α} (hm : Errs m) (hn : Errs n) :
    Errs (if p then m else n) := by
  by_cases h : p
  · rw [if_pos h]
    exact hm
  · rw [if_neg h]
    exact hn

theorem Errs.onFail {h : SfsM Unit} (hm : Errs m) (hh : Errs h) : Errs (onFail m h) := by
  intro c
  rw [wp_onFail]
  refine Wp.mono (hm c) (fun _ _ _ => trivial) (fun e t he => ?_) id
  exact Wp.mono (hh t) (fun _ _ _ => he) (fun _ _ he => he) id

theorem errs_rblock {ret : Int} (h : ret ≤ 0) (b : Nat) : Errs (rblock_nolock ret b) := by
  unfold rblock_nolock
  exact errs_get.bind fun _ => (errs_check _).bind fun _ => Errs.ite (fun _ => h) (errs_pure _)

theorem errs_wblock {ret : Int} (h : ret ≤ 0) (buf : Buffer) (b : Nat) :
    Errs (wblock_nolock ret buf b) := by
  unfold wblock_nolock
  exact errs_get.bind fun _ => (errs_check _).bind fun _ => Errs.ite (fun _ => h) (errs_modify _)

theorem errs_rbuf {ret : Int} (h : ret ≤ 0) (len b offset : Nat) :
    Errs (sfs_rbuf ret len b offset) := by
  unfold sfs_rbuf
  exact (errs_check _).bind fun _ => (errs_rblock h b).bind fun _ => errs_pure _

theorem errs_wbuf {rret wret : Int} (hr : rret ≤ 0) (hw : wret ≤ 0) (buf : List Byte)
    (b offset : Nat) : Errs (sfs_wbuf rret wret buf b offset) := by
  unfold sfs_wbuf
  exact (errs_check _).bind fun _ => (errs_rblock hr b).bind fun _ => errs_wblock hw _ b

theorem errs_assert_inuse (b : Nat) : Errs (assert_inuse b) := by
  unfold assert_inuse sfs_block_inuse bitmap_test
  refine Errs.bind ?_ fun _ => errs_check _
  refine errs_get.bind fun _ => (errs_check _).bind fun _ => ?_
  exact Errs.bind (errs_get.bind fun _ => (errs_check _).bind fun _ => errs_pure _)
    fun _ => errs_pure _

theorem errs_bitmap_alloc : Errs bitmap_alloc := by
  unfold bitmap_alloc
  refine errs_get.bind fun c => ?_
  simp only
  split
  · have hneg : -E_NO_MEM ≤ 0 := by decide
    exact fun _ => hneg
  · split
    · exact fun _ => trivial
    · exact (errs_modify _).bind fun _ => errs_pure _

theorem errs_block_alloc {ret : Int} (h : ret ≤ 0) : Errs (sfs_block_alloc ret) := by
  unfold sfs_block_alloc
  refine errs_bitmap_alloc.bind fun ino => errs_get.bind fun _ => (errs_check _).bind fun _ => ?_
  refine (errs_modify _).bind fun _ => (errs_assert_inuse ino).bind fun _ => ?_
  exact (errs_wblock h _ ino).bind fun _ => errs_pure _

theorem errs_block_free (b : Nat) : Errs (sfs_block_free b) := by
  unfold sfs_block_free bitmap_free
  refine (errs_assert_inuse b).bind fun _ => Errs.bind ?_ fun _ => errs_modify _
  exact errs_get.bind fun _ => (errs_check _).bind fun _ => (errs_check _).bind fun _ =>
    errs_modify _

/-- No answer of the device is more than 0. -/
def Around.Usual (env : Around) : Prop := ∀ i a, env.dop_io i a ≤ 0

theorem errs_linkNew (h : Around.Usual env) (i entp ent index : Nat) :
    Errs (linkNew (env.dop_io i) entp ent index) := by
  unfold linkNew
  refine Errs.onFail ?_ (Errs.ite (errs_block_free ent) (errs_pure _))
  refine (errs_block_alloc (h i _)).bind fun ino => ?_
  exact ((errs_wbuf (h i _) (h i _) _ ent _).onFail (errs_block_free ino)).bind fun _ =>
    errs_pure _

theorem errs_get_sub (h : Around.Usual env) (i entp index : Nat) (create : Bool) :
    Errs (sfs_bmap_get_sub_nolock (env.dop_io i) entp index create) := by
  unfold sfs_bmap_get_sub_nolock
  refine (errs_check _).bind fun _ => Errs.ite ?_ (Errs.ite (errs_pure _) ?_)
  · exact (errs_rbuf (h i _) 4 entp _).bind fun _ =>
      Errs.ite (errs_pure _) (errs_linkNew h i entp entp index)
  · exact (errs_block_alloc (h i _)).bind fun ent => errs_linkNew h i entp ent index

theorem errs_mapped (b : Nat) : Errs (mapped b) :=
  Errs.ite (errs_pure _) ((errs_assert_inuse b).bind fun _ => errs_pure _)

theorem errs_bmap_load (h : Around.Usual env) (i garbage index : Nat) :
    Errs (sfs_bmap_load_nolock (env.dop_io i) garbage index) := by
  have hget : ∀ create, Errs (sfs_bmap_get_nolock (env.dop_io i) garbage index create) := by
    intro create
    unfold sfs_bmap_get_nolock
    refine errs_get.bind fun c => Errs.ite (Errs.ite ?_ (errs_mapped _)) (Errs.ite ?_
      (Errs.ite ?_ (errs_mapped 0)))
    · exact (errs_block_alloc (h i _)).bind fun b => (errs_modify _).bind fun _ => errs_mapped b
    · exact (errs_get_sub h i _ _ create).bind fun r => Errs.ite
        ((errs_check _).bind fun _ => (errs_modify _).bind fun _ => errs_mapped r.2)
        (errs_mapped r.2)
    · generalize (index - SFS_NDIRECT - SFS_BLK_NENTRY) % SFS_BLK_NENTRY = k
      exact (errs_get_sub h i garbage k create).bind fun r => errs_mapped r.2
  unfold sfs_bmap_load_nolock
  refine errs_get.bind fun c => (errs_check _).bind fun _ => (hget _).bind fun ino => ?_
  exact (errs_assert_inuse ino).bind fun _ =>
    Errs.ite ((errs_modify _).bind fun _ => errs_pure _) (errs_pure _)

theorem errs_piece (h : Around.Usual env) {write : Bool} {buf : List Byte} {m : SfsM (List Byte)}
    {i off size : Nat} (hp : Piece env write buf m i off size) : Errs m := by
  cases hp with
  | part i off size =>
    unfold io_part
    refine (errs_bmap_load h i _ i).bind fun ino => Errs.ite ?_ (errs_rbuf (h i _) _ _ _)
    exact (errs_wbuf (h i _) (h i _) _ ino _).bind fun _ => errs_pure _
  | whole i =>
    unfold io_whole sfs_wblock sfs_rblock
    refine (errs_bmap_load h i _ i).bind fun ino => Errs.ite ?_ ?_
    · exact (errs_wblock (h i _) _ ino).bind fun _ => errs_pure _
    · exact (errs_rblock (h i _) ino).bind fun _ => errs_pure _

end

/-! ## A transfer in any state -/

section

variable {env : Around} {write : Bool} {buf : List Byte} {c : Call}

/-- A piece that returns has moved as many bytes as it was to move. -/
theorem wp_piece_length {m : SfsM (List Byte)} {i off size : Nat}
    (hp : Piece env write buf m i off size) (hbuf : write = true → size ≤ buf.length) :
    Wp m (fun bs _ => bs.length = size ∧ (write = true → bs = buf.take size)) (fun _ _ => True) True
      c := by
  have hrbuf : ∀ {ret : Int} {len b offset : Nat} {t : Call},
      Wp (sfs_rbuf ret len b offset) (fun bs _ => bs.length = len) (fun _ _ => True) True t := by
    intro ret len b offset t
    unfold sfs_rbuf
    rw [wp_bind, wp_check]
    split
    · rw [wp_bind]
      exact Wp.mono (wp_trivial _) (fun _ _ _ => slice_length _ _ _) (fun _ _ he => he) id
    · trivial
  cases hp with
  | part i off size =>
    unfold io_part
    rw [wp_bind]
    refine Wp.mono (wp_trivial _) (fun ino t _ => ?_) (fun _ _ he => he) id
    cases write with
    | true =>
      simp only [if_true, wp_bind, wp_pure]
      refine Wp.mono (wp_trivial _) (fun _ _ _ => ⟨?_, fun _ => trivial⟩) (fun _ _ he => he) id
      rw [List.length_take, Nat.min_eq_left (hbuf rfl)]
    | false =>
      simp only [Bool.false_eq_true, if_false]
      exact Wp.mono hrbuf (fun _ _ h => ⟨h, fun hn => hn.elim⟩)
        (fun _ _ he => he) id
  | whole i =>
    unfold io_whole
    rw [wp_bind]
    refine Wp.mono (wp_trivial _) (fun ino t _ => ?_) (fun _ _ he => he) id
    cases write with
    | true =>
      simp only [if_true, wp_bind, wp_pure]
      refine Wp.mono (wp_trivial _) (fun _ _ _ => ⟨?_, fun _ => trivial⟩) (fun _ _ he => he) id
      rw [List.length_take, Nat.min_eq_left (hbuf rfl)]
    | false =>
      simp only [Bool.false_eq_true, if_false]
      unfold sfs_rblock
      rw [wp_bind]
      exact Wp.mono (wp_trivial _)
        (fun _ _ _ => ⟨slice_length _ _ _, fun hn => hn.elim⟩)
        (fun _ _ he => he) id

theorem wp_io_length {offset endpos : Nat} (hlt : offset < endpos)
    (hbuf : write = true → endpos - offset ≤ buf.length) {E : Int → Call → Prop} :
    Wp (io_body env write buf offset endpos)
      (fun r _ => r.2.length ≤ endpos - offset ∧ (write = true → r.2 <+: buf)) E True c := by
  let I : List Byte → Call → Prop := fun done _ =>
    done.length ≤ endpos - offset ∧ (write = true → done = buf.take done.length)
  have hbody : Wp (io_body env write buf offset endpos)
      (fun r t => r.1 = 0 ∧ r.2.length = endpos - offset ∧ I r.2 t ∨ I r.2 t) E True c := by
    apply wp_io_body hlt ⟨Nat.zero_le _, fun _ => rfl⟩
    rintro m i off size done t hp - - - hle ⟨hdone, hpre⟩
    have hdrop : write = true → size ≤ (buf.drop done.length).length := by
      intro hw
      have hb := hbuf hw
      rw [List.length_drop]
      omega
    apply Wp.mono (wp_piece_length hp hdrop) _ (fun _ _ _ => ⟨hdone, hpre⟩) id
    rintro bs u ⟨hlen, hbs⟩
    refine ⟨hlen, ?_, fun hw => ?_⟩
    · rw [List.length_append]
      omega
    · rw [List.length_append, List.take_add, ← hpre hw, hlen, ← hbs hw]
  apply Wp.mono hbody _ (fun _ _ he => he) id
  rintro r t (⟨-, -, h⟩ | h)
  · exact ⟨h.1, fun hw => (h.2 hw).symm ▸ List.take_prefix _ _⟩
  · exact ⟨h.1, fun hw => (h.2 hw).symm ▸ List.take_prefix _ _⟩

theorem wp_io_errs (h : Around.Usual env) {offset endpos : Nat} {E : Int → Call → Prop} :
    Wp (io_body env write buf offset endpos) (fun r _ => r.1 ≤ 0) E True c := by
  have htail : ∀ (buf : List Byte) (blkno : Nat) (done : List Byte) (c : Call),
      Wp (io_tail env write buf blkno endpos done) (fun r _ => r.1 ≤ 0) E True c := by
    intro buf blkno done c
    unfold io_tail
    rw [wp_ite]
    split
    · rw [wp_bind, wp_attempt]
      exact Wp.mono (errs_piece h (Piece.part _ _ _) c) (fun _ _ _ => Int.le_refl 0)
        (fun _ _ he => he) id
    · exact Int.le_refl 0
  have hblocks : ∀ (n : Nat) (buf : List Byte) (blkno : Nat) (done : List Byte) (c : Call),
      Wp (io_blocks env write endpos n buf blkno done) (fun r _ => r.1 ≤ 0) E True c := by
    intro n
    induction n with
    | zero => exact htail
    | succ n ih =>
      intro buf blkno done c
      rw [io_blocks, wp_bind, wp_attempt]
      exact Wp.mono (errs_piece h (Piece.whole _) c) (fun _ t _ => ih _ _ _ t) (fun _ _ he => he) id
  unfold io_body
  rw [wp_ite]
  split
  · rw [wp_bind, wp_attempt]
    apply Wp.mono (errs_piece h (Piece.part _ _ _) c) _ (fun _ _ he => he) id
    intro _ t _
    simp only [wp_ite]
    split
    · exact Int.le_refl 0
    · exact hblocks _ _ _ _ t
  · exact hblocks _ _ _ _ c

theorem wp_sfs_io (h : Around.Usual env) {offset : Int} {len : Nat}
    (hbuf : write = true → buf.length = len) :
    Wp (sfs_io_nolock env buf offset len write)
      (fun r _ => r.2.length ≤ len ∧ (write = true → r.2 <+: buf) ∧ r.1 ≤ 0) (fun _ _ => True) True
      c := by
  simp only [sfs_io_nolock, wp_bind, wp_get, wp_check]
  split
  · cases hend : io_end c.sin.din.size offset len write with
    | error ret =>
      refine ⟨Nat.zero_le _, fun _ => List.nil_prefix, ?_⟩
      unfold io_end at hend
      have hneg : -E_INVAL ≤ 0 := by decide
      simp only at hend
      split at hend
      · rw [← Except.error.inj hend]
        exact hneg
      · split at hend
        · rw [← Except.error.inj hend]
        · split at hend
          · cases hend
          · split at hend
            · rw [← Except.error.inj hend]
            · cases hend
    | ok endpos =>
      obtain ⟨hlt, hle⟩ := io_end_le hend
      have hb : write = true → endpos - offset.toNat ≤ buf.length := fun hw => by
        rw [hbuf hw]
        exact hle
      simp only [wp_bind, wp_get, wp_ite, wp_modify, wp_pure]
      apply Wp.mono ((wp_io_length (E := fun _ _ => True) hlt hb).and
        (wp_io_errs (E := fun _ _ => True) h)) _ (fun _ _ _ => trivial) fun _ => trivial
      rintro ⟨ret, done⟩ t ⟨⟨hlen, hpre⟩, hret⟩
      simp only at hlen hpre hret ⊢
      split
      · exact ⟨Nat.le_trans hlen hle, hpre, hret⟩
      · exact ⟨Nat.le_trans hlen hle, hpre, hret⟩
  · trivial

end

/-! ## Files -/

/-- A file of the simple file system. -/
def sfs_ops : inode_ops Call { env : Around // Around.Usual env } where
  vop_read a pos len := (FileOp.read pos.toInt len).run a.1
  vop_write a pos data := (FileOp.write pos.toInt data).run a.1

theorem sfs_ops_sound : sfs_ops.Sound where
  read := by
    intro a pos len s ret bs t hrun
    have hw : Wp (sfs_io_nolock a.1 [] pos.toInt len false) _ _ True s :=
      wp_sfs_io a.2 fun hn => nomatch hn
    change sfs_io_nolock a.1 [] pos.toInt len false s = _ at hrun
    rw [wp_of_ok hrun] at hw
    exact ⟨hw.1, fun h => absurd h (Int.not_lt.2 hw.2.2)⟩
  write := by
    intro a pos data s ret bs t hrun
    have hw : Wp (sfs_io_nolock a.1 data pos.toInt data.length true) _ _ True s :=
      wp_sfs_io a.2 fun _ => rfl
    change sfs_io_nolock a.1 data pos.toInt data.length true s = _ at hrun
    rw [wp_of_ok hrun] at hw
    exact ⟨hw.2.1 rfl, fun h => absurd h (Int.not_lt.2 hw.2.2)⟩

/-- `stdin`: a read waits for the bytes that the console gets, which are fewer if something else
wakes it, and returns their number. -/
def stdin_ops : inode_ops Unit (List Byte) where
  vop_read typed _ len := pure ((typed.take len).length, typed.take len)
  vop_write _ _ _ := pure (-E_INVAL, [])

theorem stdin_ops_sound : stdin_ops.Sound where
  read := by
    intro typed pos len s ret bs t hrun
    obtain ⟨h, -⟩ := Outcome.ok.inj hrun
    obtain ⟨rfl, rfl⟩ := Prod.mk.inj h
    exact ⟨List.length_take_le _ _, fun _ => rfl⟩
  write := by
    intro typed pos data s ret bs t hrun
    obtain ⟨h, -⟩ := Outcome.ok.inj hrun
    obtain ⟨rfl, rfl⟩ := Prod.mk.inj h
    exact ⟨List.nil_prefix, fun h => absurd h (by decide)⟩

/-- `stdout`, with what has been put out. -/
def stdout_ops : inode_ops (List Byte) Unit where
  vop_read _ _ _ := pure (-E_INVAL, [])
  vop_write _ _ data := do
    modify fun out => out ++ data
    pure (0, data)

theorem stdout_ops_sound : stdout_ops.Sound where
  read := by
    intro a pos len s ret bs t hrun
    obtain ⟨h, -⟩ := Outcome.ok.inj hrun
    obtain ⟨rfl, rfl⟩ := Prod.mk.inj h
    exact ⟨Nat.zero_le _, fun h => absurd h (by decide)⟩
  write := by
    intro a pos data s ret bs t hrun
    obtain ⟨h, -⟩ := Outcome.ok.inj hrun
    obtain ⟨rfl, rfl⟩ := Prod.mk.inj h
    exact ⟨List.prefix_refl _, fun h => absurd h (lt_irrefl _)⟩

theorem toInt_of_lt {pos : Word} (h : pos.toNat < 2 ^ 31) : pos.toInt = pos.toNat :=
  BitVec.toInt_eq_toNat_of_lt (by omega)

/-- A file without device errors gives what it holds. -/
theorem delivered_array {held : Nat → Prop} {c : Call} {content : List Byte}
    {answers : Nat → { env : Around // Around.Usual env }} (h : IsArray held c content)
    (hq : ∀ k, (answers k).1.Quiet) {fuel turn len : Nat} {pos : Word}
    (hend : pos.toNat + len < 2 ^ 31) (hfuel : len ≤ fuel) :
    delivered sfs_ops answers fuel turn pos len c = (content.drop pos.toNat).take len := by
  induction fuel generalizing turn len pos c with
  | zero =>
    obtain rfl : len = 0 := by omega
    rw [List.take_zero]
    rfl
  | succ fuel ih =>
    by_cases hlen : len = 0
    · rw [delivered, if_pos hlen, hlen, List.take_zero]
    · have hint : pos.toInt = pos.toNat := toInt_of_lt (by omega)
      have hn : min IOBUF_SIZE len ≤ len := Nat.min_le_right _ _
      have hn0 : 0 < min IOBUF_SIZE len := Nat.lt_min.2 ⟨by decide, Nat.pos_of_ne_zero hlen⟩
      generalize hsize : min IOBUF_SIZE len = n at hn hn0
      have hfits : (FileOp.read pos.toInt n).Fits content := ⟨by omega, by omega⟩
      obtain ⟨⟨ret, bs⟩, t, hrun, hc, -, hspec⟩ := Wp.runs (wp_read h (hq turn) hfits)
      obtain ⟨hret, hbs⟩ := Prod.mk.inj hspec
      rw [hint, Int.toNat_natCast] at hbs
      rw [delivered_ok fuel hlen (hsize ▸ hrun)]
      by_cases hpast : content.length ≤ pos.toNat
      · have hnil : content.drop pos.toNat = [] := List.drop_eq_nil_of_le hpast
        rw [hnil, List.take_nil] at hbs
        rw [if_pos (Or.inr hbs), hbs, hnil, List.take_nil]
      · have hmax := h.length_le
        have hzero : ret = 0 := by
          have hbound : MAX_MAPPED_SIZE < SFS_MAX_FILE_SIZE := by decide
          rw [hret, if_neg (by omega)]
        have hcount : bs.length = min n (content.length - pos.toNat) := by
          rw [hbs, List.length_take, List.length_drop]
        have hne : bs ≠ [] := by
          intro h0
          rw [h0, List.length_nil] at hcount
          omega
        have hpre := List.prefix_iff_eq_take.1 (hbs ▸ List.take_prefix n (content.drop pos.toNat))
        have hle : bs.length ≤ len := by omega
        have hpos : (pos + BitVec.ofNat 32 bs.length).toNat = pos.toNat + bs.length := by
          rw [BitVec.toNat_add, BitVec.toNat_ofNat, Nat.mod_eq_of_lt (a := bs.length) (by omega),
            Nat.mod_eq_of_lt (by omega)]
        have hpos0 := List.length_pos_iff.2 hne
        rw [if_neg (not_or.2 ⟨not_not_intro hzero, hne⟩), ih hc (by omega) (by omega), hpos]
        calc bs ++ (content.drop (pos.toNat + bs.length)).take (len - bs.length)
            = (content.drop pos.toNat).take bs.length ++
                ((content.drop pos.toNat).drop bs.length).take (len - bs.length) := by
              rw [← hpre, List.drop_drop]
          _ = (content.drop pos.toNat).take len := by
              rw [← List.take_add, Nat.add_sub_cancel' hle]

/-! ## A small process -/

/-- The file of one byte is open, for a process with three areas. -/
def oneFileProc : Proc Call where
  filemap i :=
    { status := if i.val = 2 then .FD_OPENED else .FD_NONE
      readable := true
      writable := true
      fd := i.val
      pos := 0#32
      node := none
      open_count := 1 }
  node := oneByte
  mm := threeAreas
  mem := Buffer.zero

def quietAnswers (_ : Nat) : { env : Around // Around.Usual env } :=
  ⟨quiet, fun _ _ => Int.le_refl 0⟩

theorem oneFileProc_open : Open oneFileProc.filemap 2 2 :=
  ⟨by decide +kernel, by decide +kernel, by decide +kernel, by decide +kernel⟩

/-- Ten bytes are asked for, and the one that there is goes to the data area. -/
theorem sysfile_io_matches_oneByte :
    Matches .read sfs_ops quietAnswers true 2 2 0x10002000#32 10#32 oneFileProc := by
  refine (sysfile_io_matches sfs_ops_sound .read quietAnswers true oneFileProc_open threeAreas_ok
    0x10002000#32 10#32).2 fun _ _ _ => ?_
  obtain ⟨-, -, -, hok⟩ := user_mem_check_spec threeAreas_ok 0x10002000#32 1#32 true
  rw [show oneFileProc.node = oneByte from rfl,
    delivered_array oneByte_isArray (fun _ _ _ => rfl) (by decide +kernel) (Nat.le_refl _)]
  exact fun _ => (hok.1 (by decide +kernel)).2

/-- The byte is read, does not get to address 0, and is not read again. -/
theorem read_into_nowhere :
    ¬ ∀ (ν α : Type) (ops : inode_ops ν α) (way : Way) (answers : Nat → α) (memory : Bool)
      (fd : Int) (i : Fd) (base len : Word) (s : Proc ν), ops.Sound → Open s.filemap fd i →
        ListOk s.mm → Matches way ops answers memory fd i base len s := by
  intro h
  have hrun : ∃ ret t, sysfile_read sfs_ops quietAnswers true 2 0#32 10#32 oneFileProc = .ok ret t ∧
      (ret = -E_INVAL ∧ (t.filemap 2).pos = 1#32) := by
    apply Outcome.Returns.ok
    decide +kernel
  have hm := h _ _ sfs_ops .read quietAnswers true 2 2 0#32 10#32 oneFileProc sfs_ops_sound
    oneFileProc_open threeAreas_ok
  obtain ⟨ret, t, hrun, rfl, hpos⟩ := hrun
  unfold Matches Way.call at hm
  simp only at hm
  rw [wp_of_ok hrun] at hm
  obtain ⟨bs, hlen, ht⟩ := hm
  have hmax : max (-E_INVAL) 0 = 0 := by decide
  have h0 : bs.length = 0 := Int.natCast_inj.1 (hlen.trans hmax)
  rw [ht.filemap, update_self, h0] at hpos
  exact absurd hpos (by decide +kernel)

end nehcpu.kernel.sysfile
