-- What the searches in a directory find, and the enumeration of a directory: call after call of
-- `file_getdirentry` tells the names in the order of their slots, each once, whatever fails on the
-- way.
import Nehcpu.Kernel.SfsDir
import Nehcpu.Kernel.SfsFile

namespace nehcpu.kernel.fs

open Function nehcpu.command nehcpu.command.Cmd nehcpu.buffer

/-! ## Reading changes nothing -/

/-- Whatever the state is, the command leaves it as it was. -/
def Still {α : Type} (m : SfsM α) (c : Call) : Prop :=
  Wp m (fun _ t => t = c) (fun _ t => t = c) True c

section

variable {c : Call} {α β : Type}

theorem Still.bind {m : SfsM α} {f : α → SfsM β} (hm : Still m c) (hf : ∀ a, Still (f a) c) :
    Still (m >>= f) c := by
  unfold Still
  rw [wp_bind]
  apply Wp.mono hm _ (fun _ _ he => he) id
  rintro a t ht
  rw [ht]
  exact hf a

theorem still_get {f : Call → SfsM β} (h : Still (f c) c) : Still (Cmd.get >>= f) c := h

theorem still_check (p : Prop) [Decidable p] : Still (check p) c := by
  unfold Still
  rw [wp_check]
  split
  · rfl
  · trivial

theorem still_ite {p : Prop} [Decidable p] {m n : SfsM α} (hm : p → Still m c)
    (hn : ¬ p → Still n c) : Still (if p then m else n) c := by
  by_cases h : p
  · rw [if_pos h]
    exact hm h
  · rw [if_neg h]
    exact hn h

theorem still_pure (a : α) : Still (pure a) c := rfl

theorem still_throw (e : Int) : Still (throw e : SfsM α) c := rfl

theorem still_assert_inuse (b : Nat) : Still (assert_inuse b) c := by
  unfold assert_inuse sfs_block_inuse bitmap_test
  apply Still.bind _ fun _ => still_check _
  apply still_get
  apply (still_check _).bind fun _ => ?_
  apply Still.bind _ fun _ => still_pure _
  apply still_get
  exact (still_check _).bind fun _ => still_pure _

theorem still_rbuf (ret : Int) (len b offset : Nat) : Still (sfs_rbuf ret len b offset) c := by
  unfold sfs_rbuf rblock_nolock
  apply (still_check _).bind fun _ => ?_
  apply Still.bind _ fun _ => still_pure _
  apply still_get
  apply (still_check _).bind fun _ => ?_
  exact still_ite (fun _ => still_throw _) fun _ => still_pure _

theorem still_mapped (b : Nat) : Still (mapped b) c :=
  still_ite (fun _ => still_pure _) fun _ => (still_assert_inuse b).bind fun _ => still_pure _

/-- A part of the index block is looked up, and nothing is made. -/
theorem still_get_sub (dop_io : Access → Int) (entp index : Nat) :
    Wp (sfs_bmap_get_sub_nolock dop_io entp index false) (fun r t => t = c ∧ r.1 = entp)
      (fun _ t => t = c) True c := by
  unfold sfs_bmap_get_sub_nolock
  rw [wp_bind, wp_check]
  split
  · rw [wp_ite]
    split
    · rw [wp_bind]
      apply Wp.mono (still_rbuf _ _ _ _) _ (fun _ _ he => he) id
      rintro bs t ht
      rw [ht, wp_ite, if_pos (Or.inr Bool.not_false)]
      exact ⟨rfl, rfl⟩
    · rename_i h0
      rw [wp_ite, if_pos Bool.not_false]
      exact ⟨rfl, (not_not.1 h0).symm⟩
  · trivial

theorem still_bmap_get (dop_io : Access → Int) (garbage index : Nat) :
    Still (sfs_bmap_get_nolock dop_io garbage index false) c := by
  unfold sfs_bmap_get_nolock
  apply still_get
  apply still_ite
  · intro _
    apply still_ite
    · exact fun h => absurd h.2 Bool.false_ne_true
    · exact fun _ => still_mapped _
  · intro _
    apply still_ite
    · intro _
      unfold Still
      rw [wp_bind]
      apply Wp.mono (still_get_sub _ _ _) _ (fun _ _ he => he) id
      rintro ⟨ent, ino⟩ t ⟨ht, he⟩
      simp only at he
      rw [ht, wp_ite, if_neg (not_not_intro he)]
      exact still_mapped _
    · intro _
      apply still_ite
      · intro _
        generalize (index - SFS_NDIRECT - SFS_BLK_NENTRY) % SFS_BLK_NENTRY = k
        unfold Still
        rw [wp_bind]
        apply Wp.mono (still_get_sub dop_io garbage k) _ (fun _ _ he => he) id
        rintro ⟨ent, ino⟩ t ⟨ht, -⟩
        rw [ht]
        exact still_mapped _
      · exact fun _ => still_mapped _

theorem still_dirent_read (dop_io : Access → Int) (garbage slot : Nat) :
    Still (sfs_dirent_read_nolock dop_io garbage slot) c := by
  unfold sfs_dirent_read_nolock
  apply still_get
  unfold Still
  rw [wp_bind, wp_check]
  split
  · rename_i hs
    have hne : (slot == c.blocks) = false := beq_false_of_ne (Nat.ne_of_lt hs.2)
    have hload : Still (sfs_bmap_load_nolock dop_io garbage slot) c := by
      unfold sfs_bmap_load_nolock
      apply still_get
      apply (still_check _).bind fun _ => ?_
      rw [hne]
      apply (still_bmap_get _ _ _).bind fun _ => ?_
      apply (still_assert_inuse _).bind fun _ => ?_
      exact still_ite (fun h => absurd h Bool.false_ne_true) fun _ =>
        (still_pure _).bind fun _ => still_pure _
    apply hload.bind fun ino => ?_
    apply (still_assert_inuse ino).bind fun _ => ?_
    exact (still_rbuf _ _ _ _).bind fun _ => still_pure _
  · trivial

theorem still_searchLoop (env : Around) (name : List Byte) (i n : Nat) :
    Still (searchLoop env name i n) c := by
  induction n generalizing i with
  | zero => exact still_throw _
  | succ n ih =>
    unfold searchLoop
    apply (still_dirent_read _ _ _).bind fun entry => ?_
    apply still_ite (fun _ => ih (i + 1)) fun _ => ?_
    exact still_ite (fun _ => still_pure _) fun _ => ih (i + 1)

theorem still_search (env : Around) (memory : Bool) (name : List Byte) :
    Still (sfs_dirent_search_nolock env memory name) c := by
  unfold sfs_dirent_search_nolock
  apply (still_check _).bind fun _ => ?_
  apply still_ite (fun _ => still_throw _) fun _ => ?_
  exact still_get (still_searchLoop _ _ _ _)

end

/-! ## The entries of a directory -/

/-- The entry in a slot. -/
def entry (c : Call) (i : Nat) : sfs_disk_entry :=
  .load (slice (c.sfs.disk (bmap c i)) 0 sizeof_entry)

/-- The entries of the `n` slots from `i` on. -/
def slots (c : Call) (i n : Nat) : List sfs_disk_entry := (List.range' i n).map (entry c)

/-- The entries that are not empty. -/
def used (es : List sfs_disk_entry) : List sfs_disk_entry := es.filter (·.ino ≠ 0)

def entries (c : Call) : List sfs_disk_entry := slots c 0 c.blocks

/-- The names of a directory in the order of their slots. -/
def names (c : Call) : List (List Byte) := (used (entries c)).map fun e => str e.name

@[simp] theorem slots_succ (c : Call) (i n : Nat) :
    slots c i (n + 1) = entry c i :: slots c (i + 1) n := rfl

theorem used_cons_of_ne {e : sfs_disk_entry} {es : List sfs_disk_entry} (h : e.ino ≠ 0) :
    used (e :: es) = e :: used es := List.filter_cons_of_pos (by simpa using h)

theorem used_cons_of_eq {e : sfs_disk_entry} {es : List sfs_disk_entry} (h : e.ino = 0) :
    used (e :: es) = used es := List.filter_cons_of_neg (by simpa using h)

/-- An entry has a name of full length, which ends in it. -/
theorem entry_name (c : Call) (i : Nat) :
    (entry c i).name.length = sfs_dentry_size ∧ 0 ∈ (entry c i).name := by
  have hlen : ((slice (c.sfs.disk (bmap c i)) 0 sizeof_entry).drop 4).length = sfs_dentry_size := by
    rw [List.length_drop, slice_length]
    rfl
  constructor
  · unfold entry sfs_disk_entry.load
    rw [List.length_set, hlen]
  · apply List.mem_set
    rw [hlen]
    decide

theorem mem_slots {c : Call} {i n : Nat} {e : sfs_disk_entry} (h : e ∈ slots c i n) :
    ∃ j, i ≤ j ∧ j < i + n ∧ e = entry c j := by
  obtain ⟨j, hj, rfl⟩ := List.mem_map.1 h
  rw [List.mem_range'_1] at hj
  exact ⟨j, hj.1, hj.2, rfl⟩

theorem used_length_le (c : Call) : (used (entries c)).length ≤ c.blocks := by
  calc (used (entries c)).length ≤ (entries c).length := List.length_filter_le _ _
    _ = c.blocks := by simp [entries, slots]

/-- The inode that a name stands for: the first entry with the name. -/
def findName (es : List sfs_disk_entry) (name : List Byte) : Option Nat :=
  ((used es).find? fun e => name = str e.name).map sfs_disk_entry.ino

theorem mem_of_findName {es : List sfs_disk_entry} {name : List Byte} {ino : Nat}
    (h : findName es name = some ino) : ∃ e ∈ used es, str e.name = name ∧ e.ino = ino := by
  obtain ⟨e, he, rfl⟩ := Option.map_eq_some_iff.1 h
  have hname := List.find?_some he
  exact ⟨e, List.mem_of_find?_eq_some he, (of_decide_eq_true hname).symm, rfl⟩

theorem findName_cons_empty {e : sfs_disk_entry} {es : List sfs_disk_entry} (h : e.ino = 0)
    (name : List Byte) : findName (e :: es) name = findName es name := by
  unfold findName
  rw [used_cons_of_eq h]

theorem findName_cons {e : sfs_disk_entry} {es : List sfs_disk_entry} (h : e.ino ≠ 0)
    (name : List Byte) :
    findName (e :: es) name = if name = str e.name then some e.ino else findName es name := by
  unfold findName
  rw [used_cons_of_ne h, List.find?_cons]
  by_cases hn : name = str e.name
  · rw [if_pos hn, decide_eq_true hn]
    rfl
  · rw [if_neg hn, decide_eq_false hn]

/-! ## The loops -/

section

variable {held : Nat → Prop} {c : Call} {env : Around} {i n : Nat} {X : Prop}

/-- The device has failed, with what it answered. -/
def Around.Failed (env : Around) (ret : Int) : Prop := ret ≠ 0 ∧ ¬ env.Quiet

theorem Around.failed_of_index {ret : Int} (h : ret = env.dop_io i .index ∧ ret ≠ 0) :
    env.Failed ret := ⟨h.2, fun hq => h.2 (h.1.trans (hq _ _))⟩

theorem wp_dirent_read (h : Mapped held c) (hd : c.sin.din.type = SFS_TYPE_DIR)
    (hi : i < c.blocks) :
    Wp (sfs_dirent_read_nolock (env.dop_io i) (env.ino i) i) (fun e t => t = c ∧ e = entry c i)
      (fun ret t => t = c ∧ env.Failed ret) X c := by
  have hb := h.block (mem_layout hi)
  unfold sfs_dirent_read_nolock
  rw [wp_bind, wp_get, wp_bind, wp_check, if_pos ⟨hd, hi⟩, wp_bind]
  apply Wp.mono (wp_load_old h hi) _ (fun _ _ he => ⟨he.1, Around.failed_of_index he.2⟩) id
  rintro b _ ⟨rfl, rfl⟩
  rw [wp_bind]
  apply wp_assert_inuse h.free hb.1 hb.2.1 hb.2.2.1
  rw [wp_bind]
  apply wp_rbuf ⟨hb.1, hb.2.1⟩ (by decide)
  · exact fun _ => ⟨rfl, rfl⟩
  · exact fun he => ⟨rfl, he, fun hq => he (hq _ _)⟩

/-- The search ends at the first entry with the name. -/
theorem wp_searchLoop (h : Mapped held c) (hd : c.sin.din.type = SFS_TYPE_DIR)
    (hn : i + n ≤ c.blocks) (name : List Byte) :
    Wp (searchLoop env name i n) (fun ino t => t = c ∧ findName (slots c i n) name = some ino)
      (fun ret t => t = c ∧
        (env.Failed ret ∨ ret = -E_NOENT ∧ findName (slots c i n) name = none)) X c := by
  induction n generalizing i with
  | zero => exact ⟨rfl, Or.inr ⟨rfl, rfl⟩⟩
  | succ n ih =>
    unfold searchLoop
    rw [wp_bind]
    apply Wp.mono (wp_dirent_read h hd (by omega)) _ (fun _ _ he => ⟨he.1, Or.inl he.2⟩) id
    rintro _ t ⟨ht, rfl⟩
    rw [ht, wp_ite, slots_succ]
    by_cases h0 : (entry c i).ino = 0
    · rw [if_pos h0, findName_cons_empty h0]
      exact ih (by omega)
    · rw [if_neg h0, wp_ite, findName_cons h0]
      by_cases hname : name = str (entry c i).name
      · rw [if_pos hname, if_pos hname]
        exact ⟨rfl, rfl⟩
      · rw [if_neg hname, if_neg hname]
        exact ih (by omega)

theorem wp_search (h : Mapped held c) (hd : c.sin.din.type = SFS_TYPE_DIR) {name : List Byte}
    (hlen : name.length ≤ SFS_MAX_FNAME_LEN) (memory : Bool) :
    Wp (sfs_dirent_search_nolock env memory name)
      (fun ino t => t = c ∧ findName (entries c) name = some ino)
      (fun ret t => t = c ∧ ret ≠ 0 ∧ (¬ (memory = true ∧ env.Quiet) ∨
        ret = -E_NOENT ∧ findName (entries c) name = none)) X c := by
  unfold sfs_dirent_search_nolock
  rw [wp_bind, wp_check, if_pos hlen, wp_ite]
  by_cases hm : memory
  · rw [if_neg (by simp [hm]), wp_bind, wp_get]
    apply Wp.mono (wp_searchLoop h hd (Nat.zero_add _).le name) (fun _ _ hq => hq) _ id
    rintro ret t ⟨ht, hf | hr⟩
    · exact ⟨ht, hf.1, Or.inl fun hn => hf.2 hn.2⟩
    · refine ⟨ht, ?_, Or.inr hr⟩
      rw [hr.1]
      decide
  · rw [if_pos (by simp [hm])]
    exact ⟨rfl, by decide, Or.inl fun hn => hm hn.1⟩

/-- The loop ends at the entry that `slot` entries in use are before, or finds too few of them. -/
theorem wp_getdirentryLoop (h : Mapped held c) (hd : c.sin.din.type = SFS_TYPE_DIR)
    (hn : i + n ≤ c.blocks) (slot : Nat) :
    Wp (getdirentryLoop env i n slot)
      (fun e t => t = c ∧ (used (slots c i n))[slot]? = some e)
      (fun ret t => t = c ∧
        (env.Failed ret ∨ ret = -E_NOENT ∧ (used (slots c i n)).length ≤ slot)) X c := by
  induction n generalizing i slot with
  | zero => exact ⟨rfl, Or.inr ⟨rfl, Nat.zero_le _⟩⟩
  | succ n ih =>
    unfold getdirentryLoop
    rw [wp_bind]
    apply Wp.mono (wp_dirent_read h hd (by omega)) _ (fun _ _ he => ⟨he.1, Or.inl he.2⟩) id
    rintro _ t ⟨ht, rfl⟩
    rw [ht]
    by_cases h0 : (entry c i).ino = 0
    · rw [wp_ite, if_neg (not_not_intro h0), slots_succ, used_cons_of_eq h0]
      exact ih (by omega) slot
    · rw [wp_ite, if_pos h0, wp_ite, slots_succ, used_cons_of_ne h0]
      cases slot with
      | zero => exact ⟨rfl, rfl⟩
      | succ slot =>
        apply Wp.mono (ih (i := i + 1) (by omega) slot) _ _ id
        · exact fun _ _ he => he
        · rintro ret t ⟨ht, hr⟩
          exact ⟨ht, hr.imp_right fun hr => ⟨hr.1, Nat.succ_le_succ hr.2⟩⟩

end

/-! ## One call -/

/-- The string that `name` holds. -/
def dirent.told (d : dirent) : List Byte := str (slice d.name 0 sfs_dentry_size)

/-- The name ends in the array, and nothing behind the array has changed. -/
structure Told (name : List Byte) (d d' : dirent) : Prop where
  name : d'.told = name
  ends : 0 ∈ slice d'.name 0 sfs_dentry_size
  kept : ∀ i, sfs_dentry_size ≤ i → d'.name i = d.name i

def Meets.Quiet (m : Meets) : Prop := m.memory = true ∧ m.env.Quiet

section

variable {held : Nat → Prop} {c : Call} {X : Prop} {E : Int → Call → Prop}
  {filemap : filetable.Fd → filetable.file} {fd : Int} {d : dirent} {m : Meets}

/-- A whole name fits into the array. -/
theorem wp_move {name : List Byte} (hlen : name.length = sfs_dentry_size) (hz : 0 ∈ name) :
    Wp (iobuf_move (iobuf_init 0 sfs_dentry_size d.offset) d.name name sfs_dentry_size)
      (fun r t => t = c ∧ r.1 = 0 ∧ iobuf_used r.2.1 = sfs_dentry_size ∧
        Told (str name) d ⟨d.offset + sfs_dentry_size, r.2.2⟩) E X c := by
  have htake : name.take (min sfs_dentry_size sfs_dentry_size) = name := by
    rw [Nat.min_self, ← hlen, List.take_length]
  have hslice : slice (patch d.name 0 name) 0 sfs_dentry_size = name := by
    rw [← hlen]
    exact slice_patch d.name 0 name
  unfold iobuf_move iobuf_skip iobuf_init
  simp only [wp_bind, wp_check, wp_pure, htake]
  rw [if_pos (Nat.min_le_left _ _), Nat.min_self, Nat.sub_self, if_pos rfl]
  refine ⟨trivial, rfl, by simp [iobuf_used], ?_, ?_, ?_⟩
  · exact congrArg str hslice
  · rw [hslice]
    exact hz
  · intro i hi
    apply patch_out
    right
    omega

/-- A call tells the name of entry `k`, or there is none and it says so, or it fails. -/
theorem wp_sfs_getdirentry (h : Mapped held c) (hd : c.sin.din.type = SFS_TYPE_DIR) {k : Nat}
    (hk : k ≤ c.blocks) (hoff : d.offset = k * sfs_dentry_size) :
    Wp (sfs_getdirentry m (iobuf_init 0 sfs_dentry_size d.offset) d.name)
      (fun r t => t = c ∧
        ((∃ name, (names c)[k]? = some name ∧ r.1 = 0 ∧ iobuf_used r.2.1 = sfs_dentry_size ∧
          Told name d ⟨d.offset + sfs_dentry_size, r.2.2⟩) ∨
        (r.1 ≠ 0 ∧ r.2.2 = d.name ∧ (m.Quiet → r.1 = -E_NOENT ∧ (names c).length ≤ k))))
      E X c := by
  have hnat : d.offset.toNat = k * sfs_dentry_size := by
    rw [hoff, ← Int.natCast_mul, Int.toNat_natCast]
  have hslot : (iobuf_init 0 sfs_dentry_size d.offset).io_offset.toNat / sfs_dentry_size = k := by
    unfold iobuf_init
    rw [hnat]
    exact Nat.mul_div_cancel k (by decide)
  have hgood : ¬ ((iobuf_init 0 sfs_dentry_size d.offset).io_offset < 0 ∨
      (iobuf_init 0 sfs_dentry_size d.offset).io_offset.toNat % sfs_dentry_size ≠ 0) := by
    unfold iobuf_init
    rw [hnat, Nat.mul_mod_left]
    have hnn : ¬ d.offset < 0 := by
      rw [hoff]
      exact Int.not_lt.2 (Int.natCast_nonneg (k * sfs_dentry_size))
    exact fun hn => hn.elim hnn fun h0 => h0 rfl
  unfold sfs_getdirentry
  rw [wp_ite]
  by_cases hm : m.memory
  · rw [if_neg (by simp [hm]), wp_bind, wp_get, wp_ite, if_neg hgood, hslot, wp_ite,
      if_neg (Nat.not_lt.2 hk), wp_bind, wp_attempt]
    unfold sfs_getdirentry_sub_nolock
    rw [wp_bind, wp_get]
    apply Wp.mono (wp_getdirentryLoop h hd (Nat.zero_add _).le k) _ _ id
    · rintro e t ⟨ht, he⟩
      have hname : (names c)[k]? = some (str e.name) := by
        unfold names entries
        rw [List.getElem?_map, he]
        rfl
      obtain ⟨j, -, -, rfl⟩ := mem_slots (List.mem_of_mem_filter (List.mem_of_getElem? he))
      obtain ⟨hlen, hz⟩ := entry_name c j
      rw [ht]
      apply Wp.mono (wp_move hlen hz) _ (fun _ _ he => he) id
      rintro r t ⟨ht, hr⟩
      exact ⟨ht, Or.inl ⟨_, hname, hr⟩⟩
    · rintro ret t ⟨ht, hf | ⟨rfl, hle⟩⟩
      · exact ⟨ht, Or.inr ⟨hf.1, rfl, fun hq => absurd hq.2 hf.2⟩⟩
      · have hne : -E_NOENT ≠ 0 := by decide
        refine ⟨ht, Or.inr ⟨hne, rfl, fun _ => ⟨rfl, ?_⟩⟩⟩
        unfold names
        rwa [List.length_map]
  · have hne : -E_NO_MEM ≠ 0 := by decide
    rw [if_pos (by simp [hm])]
    exact ⟨rfl, Or.inr ⟨hne, rfl, fun hq => absurd hq.1 hm⟩⟩

/-- At the offset of entry `k` a call tells the name of this entry and goes on to the next one, or
finds no entry there, or fails; where it does not tell a name it leaves all as it was. -/
theorem wp_getdirentry (h : Mapped held c) (hd : c.sin.din.type = SFS_TYPE_DIR)
    (hfd : (fd2file filemap fd).isSome) {k : Nat} (hk : k ≤ c.blocks)
    (hoff : d.offset = k * sfs_dentry_size) :
    Wp (file_getdirentry filemap m fd d)
      (fun r t => t = c ∧
        ((∃ name, (names c)[k]? = some name ∧ r.1 = 0 ∧ Told name d r.2 ∧
          r.2.offset = (k + 1 : Nat) * sfs_dentry_size) ∨
        (r.1 ≠ 0 ∧ r.2 = d ∧ (m.Quiet → r.1 = -E_NOENT ∧ (names c).length ≤ k)))) E X c := by
  obtain ⟨file, hfile⟩ := Option.isSome_iff_exists.1 hfd
  have hnext : off_add d.offset sfs_dentry_size = (k + 1 : Nat) * sfs_dentry_size := by
    have hb := Nat.le_trans hk h.bound
    have hmax : MAX_MAPPED = 1036 := rfl
    have hsize : sfs_dentry_size = 256 := rfl
    rw [hsize] at hoff ⊢
    rw [off_add_eq (by omega) (by omega), hoff]
    omega
  unfold file_getdirentry
  rw [hfile]
  simp only [wp_bind]
  apply Wp.mono (wp_sfs_getdirentry h hd hk hoff) _ (fun _ _ he => he) id
  rintro ⟨ret, iob, name⟩ t ⟨ht, ⟨_, hname, hret, hu, htold⟩ | ⟨hret, hmem, hq⟩⟩
  · rw [wp_ite, if_pos hret, wp_pure, hu]
    exact ⟨ht, Or.inl ⟨_, hname, hret, ⟨htold.name, htold.ends, htold.kept⟩, hnext⟩⟩
  · rw [wp_ite, if_neg hret, wp_pure]
    refine ⟨ht, Or.inr ⟨hret, ?_, hq⟩⟩
    simp only at hmem
    rw [hmem]

/-- An offset in the middle of an entry is refused. -/
theorem wp_getdirentry_bad (hoff : ¬ (sfs_dentry_size : Int) ∣ d.offset) :
    Wp (file_getdirentry filemap m fd d) (fun r t => t = c ∧ r.1 ≠ 0 ∧ r.2 = d) E X c := by
  have hinval : -E_INVAL ≠ 0 := by decide
  have hnomem : -E_NO_MEM ≠ 0 := by decide
  have hbad : d.offset < 0 ∨ d.offset.toNat % sfs_dentry_size ≠ 0 := by
    have hsize : sfs_dentry_size = 256 := rfl
    rw [hsize] at hoff ⊢
    omega
  unfold file_getdirentry
  cases hfd : fd2file filemap fd with
  | none => exact ⟨rfl, hinval, rfl⟩
  | some file =>
    unfold sfs_getdirentry
    simp only [wp_bind, wp_ite]
    by_cases hm : m.memory
    · have hiob : (iobuf_init 0 sfs_dentry_size d.offset).io_offset = d.offset := rfl
      rw [if_neg (by simp [hm]), wp_get, hiob, if_pos hbad, wp_pure, if_neg hinval]
      exact ⟨rfl, hinval, rfl⟩
    · rw [if_pos (by simp [hm]), wp_pure, if_neg hnomem]
      exact ⟨rfl, hnomem, rfl⟩

end

/-! ## All the calls -/

/-- What calls one after the other return, and leave in the `struct dirent`: each tells the next
name, or fails and leaves it as it was. With memory and without device errors a call fails only
where no name is left. -/
inductive Lists : List (List Byte) → List Meets → dirent → List (Int × dirent) → Prop
  | stop {names : List (List Byte)} {d : dirent} : Lists names [] d []
  | told {name : List Byte} {names : List (List Byte)} {m : Meets} {ms : List Meets}
      {d d' : dirent} {rs : List (Int × dirent)} (h : Told name d d') (hrs : Lists names ms d' rs) :
      Lists (name :: names) (m :: ms) d ((0, d') :: rs)
  | failed {names : List (List Byte)} {m : Meets} {ms : List Meets} {d : dirent} {ret : Int}
      {rs : List (Int × dirent)} (h : ret ≠ 0) (hq : m.Quiet → ret = -E_NOENT ∧ names = [])
      (hrs : Lists names ms d rs) : Lists names (m :: ms) d ((ret, d) :: rs)

section

variable {held : Nat → Prop} {c : Call} {X : Prop} {E : Int → Call → Prop}
  {filemap : filetable.Fd → filetable.file} {fd : Int} {d : dirent} {m : Meets} {ms : List Meets}
  {rs : List (Int × dirent)}

theorem wp_readAll (h : Mapped held c) (hd : c.sin.din.type = SFS_TYPE_DIR)
    (hfd : (fd2file filemap fd).isSome) {k : Nat} (hk : k ≤ c.blocks)
    (hoff : d.offset = k * sfs_dentry_size) (ms : List Meets) :
    Wp (readAll filemap fd ms d) (fun rs t => t = c ∧ Lists ((names c).drop k) ms d rs) E X c := by
  induction ms generalizing k d with
  | nil => exact ⟨rfl, .stop⟩
  | cons m ms ih =>
    unfold readAll
    rw [wp_bind]
    apply Wp.mono (wp_getdirentry h hd hfd hk hoff) _ (fun _ _ he => he) id
    rintro ⟨ret, d'⟩ t ⟨ht, hr⟩
    rw [ht, wp_bind]
    rcases hr with ⟨name, hname, rfl, htold, hnext⟩ | ⟨hret, rfl, hq⟩
    · have hlt := (List.getElem?_eq_some_iff.1 hname).1
      have hk' : k + 1 ≤ c.blocks := by
        have hu := used_length_le c
        unfold names at hlt
        rw [List.length_map] at hlt
        omega
      apply Wp.mono (ih hk' hnext) _ (fun _ _ he => he) id
      rintro rs t ⟨ht, hrs⟩
      refine ⟨ht, ?_⟩
      rw [List.drop_eq_getElem_cons hlt, (List.getElem?_eq_some_iff.1 hname).2]
      exact .told htold hrs
    · apply Wp.mono (ih hk hoff) _ (fun _ _ he => he) id
      rintro rs t ⟨ht, hrs⟩
      refine ⟨ht, .failed hret ?_ hrs⟩
      intro hm
      exact ⟨(hq hm).1, List.drop_eq_nil_of_le (hq hm).2⟩

/-- Where nothing fails, the first calls tell all names, and the ones behind them tell the end. -/
theorem Lists.quiet {names : List (List Byte)} (h : Lists names ms d rs)
    (hq : ∀ m ∈ ms, m.Quiet) (hlen : names.length ≤ ms.length) :
    ∃ ds : List dirent, rs = ds.map (fun d => (0, d)) ++
        List.replicate (ms.length - names.length) (-E_NOENT, ds.getLastD d) ∧
      ds.map dirent.told = names := by
  induction h with
  | stop => exact ⟨[], by simp, (List.eq_nil_of_length_eq_zero (Nat.le_zero.1 hlen)).symm⟩
  | told h _ ih =>
    rw [List.forall_mem_cons] at hq
    obtain ⟨ds, rfl, hds⟩ := ih hq.2 (Nat.le_of_succ_le_succ hlen)
    rename_i d' _
    refine ⟨d' :: ds, ?_, ?_⟩
    · rw [List.map_cons, List.cons_append, List.getLastD_cons, List.length_cons, List.length_cons,
        Nat.add_sub_add_right]
    · rw [List.map_cons, h.name, hds]
  | failed _ hend _ ih =>
    rw [List.forall_mem_cons] at hq
    obtain ⟨rfl, rfl⟩ := hend hq.1
    obtain ⟨ds, rfl, hds⟩ := ih hq.2 (Nat.zero_le _)
    obtain rfl := List.map_eq_nil_iff.1 hds
    exact ⟨[], by simp [List.replicate_succ], rfl⟩

/-- Repeated calls from offset 0 on tell the names of a directory in the order of their slots, each
once, and then `E_NOENT`; the name ends in the array, and an offset in the middle of an entry is
refused. -/
theorem getdirentry_tells_all (h : Mapped held c) (hd : c.sin.din.type = SFS_TYPE_DIR)
    (hfd : (fd2file filemap fd).isSome) :
    (∀ ms d, d.offset = 0 → ∃ rs, readAll filemap fd ms d c = .ok rs c ∧ Lists (names c) ms d rs ∧
      ((∀ m ∈ ms, m.Quiet) → (names c).length ≤ ms.length →
        ∃ ds : List dirent, ds.map dirent.told = names c ∧ rs = ds.map (fun d => (0, d)) ++
          List.replicate (ms.length - (names c).length) (-E_NOENT, ds.getLastD d))) ∧
    ∀ m d, ¬ (sfs_dentry_size : Int) ∣ d.offset →
      ∃ ret, ret ≠ 0 ∧ file_getdirentry filemap m fd d c = .ok (ret, d) c := by
  constructor
  · intro ms d h0
    have hoff : d.offset = (0 : Nat) * sfs_dentry_size := by rw [h0, Int.natCast_zero, Int.zero_mul]
    obtain ⟨rs, t, hrun, rfl, hrs⟩ := Wp.runs (wp_readAll h hd hfd (Nat.zero_le _) hoff ms)
    refine ⟨rs, hrun, hrs, ?_⟩
    intro hq hlen
    obtain ⟨ds, hds, htold⟩ := hrs.quiet hq hlen
    exact ⟨ds, htold, hds⟩
  · intro m d hoff
    obtain ⟨⟨ret, d'⟩, t, hrun, rfl, hret, rfl⟩ := Wp.runs (wp_getdirentry_bad hoff)
    exact ⟨ret, hret, hrun⟩

end

/-! ## A small directory -/

/-- An entry at the start of a block. -/
def entryBlock (ino : Nat) (name : List Byte) : Buffer :=
  patch Buffer.zero 0 (leBytes 4 ino ++ name)

/-- Eight blocks, and the root with the entries `.` and `a` and an empty slot between them. -/
def dotAndA : Call where
  sfs :=
    { super := ⟨8, 1⟩
      super_dirty := false
      freemap := ⟨32, 1, fun _ => 0x80#32⟩
      disk := fun b => if b = 4 then entryBlock 1 [46] else if b = 6 then entryBlock 3 [97]
        else Buffer.zero }
  sin :=
    { din := ⟨12288, SFS_TYPE_DIR, 1, 3, fun i => if i < 3 then 4 + i else 0, 0⟩
      ino := 1
      dirty := false }

theorem dotAndA_mapped : Mapped (· < 4) dotAndA where
  free := ⟨by decide, by decide, by decide, by decide +kernel, by decide +kernel⟩
  ledger := ⟨by decide +kernel, by decide +kernel, by decide +kernel, by decide +kernel,
    by decide +kernel⟩
  bound := by decide
  none := by
    intro i hi _
    have h3 : ¬ i < 3 := Nat.not_lt.2 hi
    simp [bmap, dotAndA, h3]
  zero := by decide
  own := by decide

/-- A table with one open file. -/
def oneFile (i : filetable.Fd) : filetable.file :=
  { filetable.filemap_init i with status := if i.val = 2 then .FD_OPENED else .FD_NONE }

/-- Three calls tell `.`, `a` and the end. -/
theorem getdirentry_tells_all_dotAndA : ∃ rs, ∃ ds : List dirent,
    readAll oneFile 2 (List.replicate 3 ⟨true, quiet⟩) ⟨0, Buffer.zero⟩ dotAndA = .ok rs dotAndA ∧
      ds.map dirent.told = [[46], [97]] ∧
      rs = ds.map (fun d => (0, d)) ++ [(-E_NOENT, ds.getLastD ⟨0, Buffer.zero⟩)] := by
  have hnames : names dotAndA = [[46], [97]] := by decide +kernel
  have hfd : (fd2file oneFile 2).isSome := by decide +kernel
  obtain ⟨rs, hrun, -, hq⟩ := (getdirentry_tells_all dotAndA_mapped rfl hfd).1
    (List.replicate 3 ⟨true, quiet⟩) ⟨0, Buffer.zero⟩ rfl
  rw [hnames] at hq
  obtain ⟨ds, hds, hrs⟩ := hq (by simp [Meets.Quiet, quiet, Around.Quiet]) (by decide)
  exact ⟨rs, ds, hrun, hds, hrs⟩

end nehcpu.kernel.fs
