-- Where a path leads, component by component from its start, and which paths `vfs_lookup` follows:
-- those with one component behind the start, as a directory looks up the whole rest as one name.
import Nehcpu.Kernel.VfsOpen

namespace nehcpu.kernel.vfs

open Function nehcpu.command nehcpu.command.Cmd nehcpu.buffer nehcpu.kernel.fs

/-! ## Paths -/

/-- Where a path starts. -/
inductive Start
  | cwd
  | bootfs
  | root
  | device (devname : List Byte)

def plain (b : Byte) : Bool := b ≠ COLON ∧ b ≠ SLASH

/-- The start of a path, and what is to be looked up from there. -/
def parsePath (path : List Byte) : Start × List Byte :=
  match path.takeWhile plain, path.dropWhile plain with
  | _, [] => (.cwd, path)
  | [], b :: rest => (if b = COLON then .root else .bootfs, skipSlashes rest)
  | c :: name, b :: rest =>
    if b = COLON then (.device (c :: name), skipSlashes rest) else (.cwd, path)

/-- The names between the slashes. -/
def components (path : List Byte) : List (List Byte) := (path.splitOn SLASH).filter (· ≠ [])

/-- The inode at a start. -/
def Vfs.start (v : Vfs) : Start → Except Int Node
  | .cwd => v.pwd.elim (.error (-E_NOENT)) .ok
  | .bootfs => v.bootfs_node.elim (.error (-E_NOENT)) .ok
  | .root =>
    match v.pwd with
    | some (.sfs fs _) => .ok (.sfs fs SFS_BLKN_ROOT)
    | _ => .error (-E_NOENT)
  | .device devname =>
    match v.vdev_list.find? fun vdev => vdev.devname = devname with
    | none => .error (-E_NO_DEV)
    | some vdev =>
      match vdev.fs, vdev.devnode with
      | some fs, _ => .ok (.sfs fs SFS_BLKN_ROOT)
      | none, some devnode => if vdev.mountable then .error (-E_NA_DEV) else .ok devnode
      | none, none => .error (-E_NA_DEV)

/-- The names looked up one after the other. -/
def Vfs.walk (v : Vfs) : Node → List (List Byte) → Option Node
  | node, [] => some node
  | .device _, _ :: _ => none
  | .sfs fs ino, name :: rest =>
    if (v.call fs ino).sin.din.type = SFS_TYPE_DIR then
      match findName (entries (v.call fs ino)) name with
      | some sub => v.walk (.sfs fs sub) rest
      | none => none
    else none

theorem firstMark_eq (path : List Byte) :
    firstMark path =
      (path.dropWhile plain).head?.map fun b => ((path.takeWhile plain).length, b) := by
  induction path with
  | nil => rfl
  | cons c path ih =>
    unfold firstMark
    by_cases h : c = COLON ∨ c = SLASH
    · have hp : plain c = false := by
        unfold plain
        rcases h with rfl | rfl <;> rfl
      rw [if_pos h, List.takeWhile_cons, List.dropWhile_cons, hp]
      rfl
    · have hp : plain c = true := by
        unfold plain
        rw [not_or] at h
        exact decide_eq_true h
      rw [if_neg h, ih, List.takeWhile_cons_of_pos hp, List.dropWhile_cons_of_pos hp,
        Option.map_map]
      rfl

theorem eq_of_not_plain {path rest : List Byte} {b : Byte}
    (h : path.dropWhile plain = b :: rest) : b = COLON ∨ b = SLASH := by
  have hb := List.head?_dropWhile_not plain path
  rw [h, List.head?_cons] at hb
  by_contra hn
  rw [not_or] at hn
  have hp : plain b = true := decide_eq_true hn
  exact absurd (hb.symm.trans hp) Bool.false_ne_true

/-! ## Trees -/

/-- The inode is in memory. -/
def Vfs.Present (v : Vfs) (node : Node) : Prop := (v.mem node).isSome

/-- The mounted file systems are in order: each name in a directory is that of an inode, and the
places to start from are directories, or devices that are there to stay. `inodes` are the inodes
that the file systems have. -/
structure Tree (inodes : Fs → Nat → Prop) (v : Vfs) : Prop where
  mapped : ∀ fs ino, inodes fs ino → ∃ held, Mapped held (v.call fs ino)
  block : ∀ fs ino, inodes fs ino →
    ino ≠ 0 ∧ ino < (v.mount fs).sfs.super.blocks ∧ ino ∉ (v.call fs ino).free
  links : ∀ fs ino, inodes fs ino → (v.call fs ino).sin.din.nlinks ≠ 0
  type : ∀ fs ino, inodes fs ino →
    (v.call fs ino).sin.din.type = SFS_TYPE_DIR ∨ (v.call fs ino).sin.din.type = SFS_TYPE_FILE
  entry : ∀ fs ino, inodes fs ino → (v.call fs ino).sin.din.type = SFS_TYPE_DIR →
    ∀ e ∈ used (entries (v.call fs ino)), inodes fs e.ino ∧ SLASH ∉ str e.name
  root : ∀ fs ino, inodes fs ino →
    inodes fs SFS_BLKN_ROOT ∧ (v.call fs SFS_BLKN_ROOT).sin.din.type = SFS_TYPE_DIR
  held : ∀ node, v.pwd = some node ∨ v.bootfs_node = some node → v.Present node ∧ 0 < v.refs node ∧
    ∃ fs ino, node = .sfs fs ino ∧ inodes fs ino ∧ (v.call fs ino).sin.din.type = SFS_TYPE_DIR
  device : ∀ vdev ∈ v.vdev_list, match vdev.fs, vdev.devnode with
    | some fs, _ => ∃ ino, inodes fs ino
    | none, some devnode =>
      v.Present devnode ∧ 0 < v.refs devnode ∧ ∃ dev, devnode = .device dev
    | none, none => False
  counts : ∀ node, v.opens node ≤ v.refs node ∧ v.refs node + 2 < MAX_INODE_COUNT

/-- What `vop_lookup` may be called with. -/
def Vfs.IsStart (v : Vfs) (inodes : Fs → Nat → Prop) : Node → Prop
  | .device dev => 0 < v.refs (.device dev)
  | .sfs fs ino => inodes fs ino ∧ (v.call fs ino).sin.din.type = SFS_TYPE_DIR

/-- No memory is missing, and no device fails. -/
def Load.Fine (a : Load) : Prop := a.din = true ∧ a.read = 0 ∧ a.node = true

structure Once.Fine (a : Once) : Prop where
  memory : a.memory = true
  env : a.env.Quiet
  load : a.load.Fine

structure Answers.Fine (a : Answers) : Prop where
  root : a.root.Fine
  once : a.once.Fine

/-- No inode leaves the memory. -/
def Keeps (v t : Vfs) : Prop := ∀ node, v.Present node → t.Present node

/-- No other inode leaves the memory. -/
def Spares (node : Node) (v t : Vfs) : Prop := ∀ n, n ≠ node → v.Present n → t.Present n

section

variable {inodes : Fs → Nat → Prop} {v t : Vfs} {node : Node} {fs : Fs} {ino : Nat} {a : Answers}
  {X : Prop} {E : Int → Vfs → Prop}

theorem present_set (v : Vfs) (node n : Node) (i : inode) (h : v.Present n ∨ n = node) :
    ({ v with mem := update v.mem node (some i) } : Vfs).Present n := by
  unfold Vfs.Present
  by_cases hn : n = node
  · rw [hn]
    simp
  · rcases h with h | h
    · simpa [hn] using show (v.mem n).isSome from h
    · exact absurd h hn

theorem there_getInode {Q : inode → Vfs → Prop} (h : v.Present node)
    (hq : ∀ i, v.mem node = some i → Q i v) : Wp (getInode node) Q E X v := by
  obtain ⟨i, hi⟩ := Option.isSome_iff_exists.1 h
  unfold getInode
  rw [wp_bind, wp_get, hi]
  exact hq i hi

theorem there_ref_inc (h : v.Present node) :
    Wp (vop_ref_inc node) (fun _ t => Keeps v t) E X v := by
  unfold vop_ref_inc
  rw [wp_bind]
  apply there_getInode h
  intro i _ n hn
  exact present_set v node n _ (Or.inl hn)

theorem there_inode_check {Q : Unit → Vfs → Prop} (h : v.Present node)
    (hc : v.opens node ≤ v.refs node ∧ v.refs node < MAX_INODE_COUNT) (hq : Q () v) :
    Wp (inode_check node) Q E X v := by
  unfold inode_check
  rw [wp_bind]
  apply there_getInode h
  intro i hi
  unfold Vfs.opens Vfs.refs at hc
  rw [hi] at hc
  rw [wp_check, if_pos ⟨hc.1, hc.2, Nat.lt_of_le_of_lt hc.1 hc.2⟩]
  exact hq

theorem there_reclaim (h : v.Present node) (hr : v.refs node = 0) (ho : v.opens node = 0)
    (hdev : ∀ dev, node ≠ .device dev) (keeps : Node → Bool) :
    Wp (vop_reclaim keeps node) (fun _ t => Spares node v t) E X v := by
  unfold vop_reclaim
  rw [wp_bind]
  apply there_inode_check h
  · rw [hr, ho]
    exact ⟨Nat.le_refl 0, by decide⟩
  · cases node with
    | device dev => exact absurd rfl (hdev dev)
    | sfs fs ino =>
      simp only [wp_ite]
      split
      · exact fun _ _ hn => hn
      · rw [wp_bind]
        apply there_getInode h
        intro i hi
        unfold Vfs.refs at hr
        unfold Vfs.opens at ho
        rw [hi] at hr ho
        rw [wp_bind, wp_check, if_pos ⟨hr, ho⟩]
        intro n hne hn
        simpa [hne, Vfs.Present] using show (v.mem n).isSome from hn

/-- An inode whose last reference goes may leave the memory, the others stay. -/
theorem there_ref_dec (h : v.Present node) (hr : 0 < v.refs node)
    (hc : v.opens node ≤ v.refs node - 1) (hdev : ∀ dev, node = .device dev → 1 < v.refs node)
    (keeps : Node → Bool) :
    Wp (vop_ref_dec keeps node)
      (fun _ t => Spares node v t ∧ (1 < v.refs node → Keeps v t)) E X v := by
  unfold vop_ref_dec
  rw [wp_bind]
  apply there_getInode h
  intro i hi
  have href : v.refs node = i.ref_count := by
    unfold Vfs.refs
    rw [hi]
    rfl
  have hopen : v.opens node = i.open_count := by
    unfold Vfs.opens
    rw [hi]
    rfl
  rw [href, hopen] at hc
  rw [href] at hr
  rw [wp_bind, wp_check, if_pos hr, wp_bind]
  unfold setInode
  rw [wp_modify, wp_ite]
  split
  · rename_i h0
    have hone : ¬ 1 < v.refs node := by omega
    have hz : i.open_count = 0 := by omega
    apply Wp.mono (there_reclaim (present_set v node node _ (Or.inr rfl)) _ _ _ keeps) _
      (fun _ _ he => he) id
    · simp [Vfs.refs, h0]
    · simp [Vfs.opens, hz]
    · exact fun dev hd => hone (hdev dev hd)
    · intro _ t ht
      refine ⟨fun n hne hn => ht n hne ?_, fun hn => absurd hn hone⟩
      exact present_set v node n _ (Or.inl hn)
  · exact ⟨fun n _ hn => present_set v node n _ (Or.inl hn),
      fun _ n hn => present_set v node n _ (Or.inl hn)⟩

theorem call_eq (ht : t.mount = v.mount) (fs : Fs) (ino : Nat) : t.call fs ino = v.call fs ino := by
  unfold Vfs.call
  rw [ht]

/-- An inode of the file system is loaded, if nothing fails. -/
theorem there_load_inode (T : Tree inodes v) (ht : t.mount = v.mount) (hin : inodes fs ino)
    (a : Load) :
    Wp (sfs_load_inode a fs ino)
      (fun node u => node = .sfs fs ino ∧ Keeps t u ∧ u.Present node)
      (fun ret u => Keeps t u ∧ ret ≠ 0 ∧ ¬ a.Fine) X t := by
  obtain ⟨held, hmap⟩ := T.mapped fs ino hin
  obtain ⟨h0, hlt, hfree⟩ := T.block fs ino hin
  have hread : Wp (do
      assert_inuse ino
      let _ ← sfs_rbuf a.read sizeof_din ino 0
      pure () : SfsM Unit) (fun _ c => c = v.call fs ino) (fun ret _ => ret ≠ 0 ∧ ¬ a.Fine) X
      (v.call fs ino) := by
    rw [wp_bind]
    apply wp_assert_inuse hmap.free h0 hlt hfree
    rw [wp_bind]
    apply wp_rbuf ⟨h0, hlt⟩ (by decide)
    · exact fun _ => rfl
    · exact fun hr => ⟨hr, fun hf => hr hf.2.1⟩
  unfold sfs_load_inode
  rw [wp_bind, wp_get]
  cases hm : t.mem (.sfs fs ino) with
  | some i =>
    have hp : t.Present (.sfs fs ino) := by
      unfold Vfs.Present
      rw [hm]
      rfl
    rw [wp_bind]
    apply Wp.mono (there_ref_inc hp) _ (fun _ _ he => he) id
    exact fun _ u hu => ⟨rfl, hu, hu _ hp⟩
  | none =>
    simp only [wp_bind, wp_ite]
    split
    · rename_i hd
      refine ⟨fun _ hn => hn, by decide, fun hf => ?_⟩
      rw [hf.1] at hd
      exact absurd hd Bool.false_ne_true
    · apply wp_within
      rw [call_eq ht]
      apply Wp.mono hread _ (fun _ _ he => ⟨fun _ hn => hn, he⟩) id
      intro _ c hc
      have hlinks := T.links fs ino hin
      have htype := T.type fs ino hin
      rw [← call_eq ht] at hlinks htype
      rw [hc, ← call_eq ht, setCall_call, wp_get, wp_check, if_pos hlinks]
      split
      · rename_i hn
        refine ⟨fun _ hn => hn, by decide, fun hf => ?_⟩
        rw [hf.2.2] at hn
        exact absurd hn Bool.false_ne_true
      · rw [wp_check, if_pos htype]
        refine ⟨rfl, fun n hn => present_set t _ n _ (Or.inl hn), ?_⟩
        exact present_set t _ _ _ (Or.inr rfl)

theorem there_get_root (T : Tree inodes v) (ht : t.mount = v.mount) (hin : inodes fs SFS_BLKN_ROOT)
    (a : Answers) :
    Wp (fsop_get_root a fs)
      (fun node u => node = .sfs fs SFS_BLKN_ROOT ∧ Keeps t u ∧ u.Present node) E (¬ a.Fine) t := by
  unfold fsop_get_root
  rw [wp_bind, wp_attempt]
  apply Wp.mono (there_load_inode T ht hin a.root) (fun _ _ hu => hu) _ id
  exact fun _ _ hf ha => hf.2.2 ha.root

/-- A name of at most `SFS_MAX_FNAME_LEN` bytes is looked up in a directory. -/
theorem there_lookup_once (T : Tree inodes v) (ht : t.mount = v.mount) (hin : inodes fs ino)
    (hd : (v.call fs ino).sin.din.type = SFS_TYPE_DIR) {name : List Byte}
    (hlen : name.length ≤ SFS_MAX_FNAME_LEN) (a : Once) :
    Wp (sfs_lookup_once a fs ino name)
      (fun node u =>
        (findName (entries (v.call fs ino)) name).map (.sfs fs) = some node ∧ Keeps t u)
      (fun ret u => ret ≠ 0 ∧
        (¬ a.Fine ∨ ret = -E_NOENT ∧ findName (entries (v.call fs ino)) name = none) ∧
        Keeps t u) X t := by
  obtain ⟨held, hmap⟩ := T.mapped fs ino hin
  unfold sfs_lookup_once
  rw [wp_bind]
  apply wp_within
  rw [call_eq ht]
  apply Wp.mono (wp_search hmap hd hlen a.memory) _ _ id
  · rintro sub c ⟨hc, hsub⟩
    obtain ⟨e, he, -, rfl⟩ := mem_of_findName hsub
    rw [hc, ← call_eq ht, setCall_call, call_eq ht, hsub]
    apply Wp.mono (there_load_inode T ht (T.entry fs ino hin hd e he).1 a.load) _ _ id
    · rintro node u ⟨rfl, hu, -⟩
      exact ⟨rfl, hu⟩
    · exact fun _ _ hf => ⟨hf.2.1, Or.inl fun ha => hf.2.2 ha.load, hf.1⟩
  · rintro ret c ⟨-, hret, hr⟩
    exact ⟨hret, hr.imp_left fun hf ha => hf ⟨ha.memory, ha.env⟩, fun _ hn => hn⟩

theorem le_bump (r : Node → Nat) (node n : Node) : r n ≤ bump r node n := by
  unfold bump
  by_cases h : n = node
  · rw [h, update_self]
    exact Nat.le_succ _
  · rw [update_of_ne h]

theorem bump_self (r : Node → Nat) (node : Node) : bump r node node = r node + 1 :=
  update_self _ _ _

/-- A reference that was taken for a lookup is given back, and another one is still there. -/
theorem there_give_back {m : Fs → Mount} {r o : Node → Nat} (h : At m (bump r node) o t)
    (hp : t.Present node) (hone : 0 < r node) (hc : o node ≤ r node) (keeps : Node → Bool) :
    Wp (vop_ref_dec keeps node) (fun _ u => At m r o u ∧ Keeps t u) E X t := by
  have href : t.refs node = r node + 1 := by
    rw [h.refs, bump_self]
  have hdec : Wp (vop_ref_dec keeps node) (fun _ u => 1 < t.refs node → Keeps t u) E X t := by
    apply Wp.mono (there_ref_dec hp _ _ _ keeps) (fun _ _ hu => hu.2) (fun _ _ he => he) id
    · omega
    · rw [href, h.opens]
      omega
    · intro _ _
      omega
  apply Wp.mono ((wp_ref_dec h keeps (E := E)).and hdec) _ (fun _ _ he => he.1) fun hx => hx.2
  rintro _ u ⟨hu, hk⟩
  exact ⟨hu, hk (by omega)⟩

/-- The directory looks up the whole rest of the path as one name. -/
theorem there_sfs_lookup {r : Node → Nat} (T : Tree inodes v) (h : At v.mount r v.opens t)
    (hr : r = bump v.refs (.sfs fs ino)) (hp : t.Present (.sfs fs ino)) (hin : inodes fs ino)
    (hd : (v.call fs ino).sin.din.type = SFS_TYPE_DIR) {path : List Byte} (hne : path ≠ [])
    (hhead : path.head? ≠ some SLASH) (hlen : path.length ≤ SFS_MAX_FNAME_LEN) :
    Wp (sfs_lookup a fs ino path)
      (fun node u => (findName (entries (v.call fs ino)) path).map (.sfs fs) = some node ∧
        u.Present (.sfs fs ino))
      (fun ret u => u.Present (.sfs fs ino) ∧
        (¬ a.Fine ∨ ret = -E_NOENT ∧ findName (entries (v.call fs ino)) path = none)) X t := by
  have hcount := (T.counts (.sfs fs ino)).1
  have hone : r (.sfs fs ino) = v.refs (.sfs fs ino) + 1 := by
    rw [hr, bump_self]
  unfold sfs_lookup
  rw [wp_bind, wp_check, if_pos ⟨hne, hhead⟩, wp_bind]
  apply Wp.mono
    ((wp_ref_inc h (E := fun _ _ => False)).and (there_ref_inc hp (E := fun _ _ => False)))
    _ (fun _ _ he => he.1.elim) fun hx => hx.2
  rintro _ w ⟨hw, hk⟩
  have hp := hk _ hp
  rw [wp_bind, wp_get, wp_ite, call_eq hw.mount, if_neg (not_not_intro hd), wp_bind, wp_attempt]
  apply Wp.mono ((takes_lookup_once hw a.once path).and
    (there_lookup_once T hw.mount hin hd hlen a.once)) _ _ fun hx => hx.2
  · rintro sub u ⟨hu, hsub, hk⟩
    rw [bump_comm] at hu
    have hle := le_bump r sub (.sfs fs ino)
    rw [wp_bind]
    apply Wp.mono (there_give_back hu (hk _ hp) (by omega) (by omega) a.keeps) _
      (fun _ _ he => he) id
    exact fun _ x hx => ⟨hsub, hx.2 _ (hk _ hp)⟩
  · rintro ret u ⟨hu, -, hret, hk⟩
    rw [wp_bind]
    apply Wp.mono (there_give_back hu (hk _ hp) (by omega) (by omega) a.keeps) _
      (fun _ _ he => he) id
    exact fun _ x hx => ⟨hx.2 _ (hk _ hp), hret.imp_left fun hf ha => hf ha.once⟩

theorem there_get_curdir (T : Tree inodes v) :
    Wp vfs_get_curdir (fun node u => v.pwd = some node ∧ Keeps v u ∧ u.Present node)
      (fun ret _ => v.pwd = none ∧ ret = -E_NOENT) X v := by
  unfold vfs_get_curdir
  rw [wp_bind, wp_get]
  cases hp : v.pwd with
  | none => exact ⟨rfl, rfl⟩
  | some node =>
    have hn := (T.held node (Or.inl hp)).1
    rw [wp_bind]
    apply Wp.mono (there_ref_inc hn) _ (fun _ _ he => he) id
    exact fun _ u hu => ⟨rfl, hu, hu _ hn⟩

theorem there_get_bootfs (T : Tree inodes v) :
    Wp vfs_get_bootfs (fun node u => v.bootfs_node = some node ∧ Keeps v u ∧ u.Present node)
      (fun ret _ => v.bootfs_node = none ∧ ret = -E_NOENT) X v := by
  unfold vfs_get_bootfs
  rw [wp_bind, wp_get]
  cases hp : v.bootfs_node with
  | none => exact ⟨rfl, rfl⟩
  | some node =>
    have hn := (T.held node (Or.inr hp)).1
    rw [wp_bind]
    apply Wp.mono (there_ref_inc hn) _ (fun _ _ he => he) id
    exact fun _ u hu => ⟨rfl, hu, hu _ hn⟩

theorem there_vfs_get_root (T : Tree inodes v) (devname : List Byte) :
    Wp (vfs_get_root a devname)
      (fun node u => v.start (.device devname) = .ok node ∧ Keeps v u ∧ u.Present node)
      (fun ret _ => v.start (.device devname) = .error ret) (¬ a.Fine) v := by
  unfold vfs_get_root
  rw [wp_bind, wp_get]
  cases hf : v.vdev_list.find? fun vdev => vdev.devname = devname with
  | none =>
    show v.start (.device devname) = _
    simp only [Vfs.start, hf]
  | some vdev =>
    have hvdev := T.device vdev (List.mem_of_find?_eq_some hf)
    cases hfs : vdev.fs with
    | some fs =>
      rw [hfs] at hvdev
      obtain ⟨ino, hin⟩ := hvdev
      simp only [hfs]
      apply Wp.mono (there_get_root T rfl (T.root fs ino hin).1 a) _ (fun _ _ he => he) id
      rintro node u ⟨rfl, hu⟩
      refine ⟨?_, hu⟩
      simp only [Vfs.start, hf, hfs]
    | none =>
      cases hnode : vdev.devnode with
      | none =>
        rw [hfs, hnode] at hvdev
        exact hvdev.elim
      | some devnode =>
        rw [hfs, hnode] at hvdev
        simp only [hfs, hnode, wp_ite]
        cases hm : vdev.mountable with
        | true =>
          show v.start (.device devname) = _
          simp only [Vfs.start, hf, hfs, hnode, hm, if_true]
        | false =>
          rw [if_pos Bool.not_false, wp_bind]
          apply Wp.mono (there_ref_inc hvdev.1) _ (fun _ _ he => he) id
          intro _ u hu
          refine ⟨?_, hu, hu _ hvdev.1⟩
          simp only [Vfs.start, hf, hfs, hnode, hm, Bool.false_eq_true, if_false]

/-- The root of the file system that the process is in. -/
theorem there_currentRoot (T : Tree inodes v) :
    Wp (currentRoot a)
      (fun node u => v.start .root = .ok node ∧ Keeps v u ∧ u.Present node)
      (fun ret _ => v.start .root = .error ret) (¬ a.Fine) v := by
  unfold currentRoot
  rw [wp_bind]
  apply Wp.mono ((takes_get_curdir ⟨rfl, rfl, rfl⟩).and (there_get_curdir T)) _ _ fun hx => hx.2
  · rintro node t ⟨ht, hp, hk, hnode⟩
    obtain ⟨-, href, fs, ino, rfl, hin, -⟩ := T.held node (Or.inl hp)
    rw [wp_bind]
    apply Wp.mono ((takes_get_root ht a (E := fun _ _ => False)).and
      (there_get_root T ht.mount (T.root fs ino hin).1 a (E := fun _ _ => False))) _
      (fun _ _ he => he.1.elim) fun hx => hx.2
    rintro root u ⟨hu, rfl, hk', hroot⟩
    rw [bump_comm] at hu
    have hle := le_bump v.refs (.sfs fs SFS_BLKN_ROOT) (.sfs fs ino)
    have hcount := (T.counts (.sfs fs ino)).1
    rw [wp_bind]
    apply Wp.mono (there_give_back hu (hk' _ hnode) (by omega) (by omega) a.keeps) _
      (fun _ _ he => he) id
    rintro _ x ⟨-, hx⟩
    refine ⟨?_, fun n hn => hx n (hk' n (hk n hn)), hx _ hroot⟩
    simp only [Vfs.start, hp]
  · rintro ret t ⟨-, hp, rfl⟩
    simp only [Vfs.start, hp]

/-- The start of the path is found as `parsePath` says. -/
theorem there_get_device (T : Tree inodes v) (path : List Byte) :
    Wp (get_device a path)
      (fun res u => res.1 = (parsePath path).2 ∧ v.start (parsePath path).1 = .ok res.2 ∧
        Keeps v u ∧ u.Present res.2)
      (fun ret _ => v.start (parsePath path).1 = .error ret) (¬ a.Fine) v := by
  have hcwd : Wp (vfs_get_curdir >>= fun node => pure (path, node))
      (fun res u => res.1 = path ∧ v.start .cwd = .ok res.2 ∧ Keeps v u ∧ u.Present res.2)
      (fun ret _ => v.start .cwd = .error ret) (¬ a.Fine) v := by
    rw [wp_bind]
    apply Wp.mono (there_get_curdir T) _ _ id
    · rintro node u ⟨hp, hu⟩
      refine ⟨rfl, ?_, hu⟩
      simp only [Vfs.start, hp, Option.elim_some]
    · rintro ret u ⟨hp, rfl⟩
      simp only [Vfs.start, hp, Option.elim_none]
  have hsplit := List.takeWhile_append_dropWhile (p := plain) (l := path)
  unfold get_device parsePath
  rw [firstMark_eq]
  cases hrest : path.dropWhile plain with
  | nil => exact hcwd
  | cons b rest =>
    rw [hrest] at hsplit
    rw [List.head?_cons, Option.map_some]
    cases hname : path.takeWhile plain with
    | nil =>
      rw [hname, List.nil_append] at hsplit
      have hdrop : path.drop 1 = rest := by
        rw [← hsplit]
        rfl
      simp only [List.length_nil, hdrop]
      rw [wp_ite, if_neg (by simp), wp_ite, if_neg (by simp), wp_ite]
      rcases eq_of_not_plain hrest with rfl | rfl
      · rw [if_neg (by decide), if_pos rfl, wp_bind]
        exact Wp.mono (there_currentRoot T) (fun _ _ hq => ⟨rfl, hq⟩) (fun _ _ he => he) id
      · rw [if_pos rfl, if_neg (by decide), wp_bind]
        apply Wp.mono (there_get_bootfs T) _ _ id
        · rintro node u ⟨hp, hu⟩
          refine ⟨rfl, ?_, hu⟩
          simp only [Vfs.start, hp, Option.elim_some]
        · rintro ret u ⟨hp, rfl⟩
          simp only [Vfs.start, hp, Option.elim_none]
    | cons c name =>
      rw [hname] at hsplit
      have htake : path.take (c :: name).length = c :: name := by
        rw [← hsplit, List.take_left]
      have hdrop : path.drop ((c :: name).length + 1) = rest := by
        rw [← hsplit, ← List.drop_drop, List.drop_left]
        rfl
      simp only
      rw [wp_ite]
      rcases eq_of_not_plain hrest with rfl | rfl
      · rw [if_neg (by simp), wp_ite, if_pos ⟨rfl, Nat.succ_pos _⟩, htake, hdrop, wp_bind,
          if_pos rfl]
        exact Wp.mono (there_vfs_get_root T (c :: name)) (fun _ _ hq => ⟨rfl, hq⟩)
          (fun _ _ he => he) id
      · rw [if_pos ⟨by decide, Nat.succ_ne_zero _⟩, if_neg (by decide)]
        exact hcwd

theorem start_isStart (T : Tree inodes v) {s : Start} (h : v.start s = .ok node) :
    v.IsStart inodes node := by
  have hheld : ∀ n, v.pwd = some n ∨ v.bootfs_node = some n → v.IsStart inodes n := by
    intro n hn
    obtain ⟨-, -, fs, ino, rfl, hin, hd⟩ := T.held n hn
    exact ⟨hin, hd⟩
  cases s with
  | cwd =>
    cases hp : v.pwd with
    | none => simp [Vfs.start, hp] at h
    | some n =>
      simp only [Vfs.start, hp, Option.elim_some, Except.ok.injEq] at h
      exact hheld node (Or.inl (h ▸ hp))
  | bootfs =>
    cases hp : v.bootfs_node with
    | none => simp [Vfs.start, hp] at h
    | some n =>
      simp only [Vfs.start, hp, Option.elim_some, Except.ok.injEq] at h
      exact hheld node (Or.inr (h ▸ hp))
  | root =>
    cases hp : v.pwd with
    | none => simp [Vfs.start, hp] at h
    | some n =>
      obtain ⟨-, -, fs, ino, rfl, hin, -⟩ := T.held n (Or.inl hp)
      simp only [Vfs.start, hp, Except.ok.injEq] at h
      rw [← h]
      exact T.root fs ino hin
  | device devname =>
    cases hf : v.vdev_list.find? fun vdev => vdev.devname = devname with
    | none => simp [Vfs.start, hf] at h
    | some vdev =>
      have hvdev := T.device vdev (List.mem_of_find?_eq_some hf)
      cases hfs : vdev.fs with
      | some fs =>
        rw [hfs] at hvdev
        obtain ⟨ino, hin⟩ := hvdev
        simp only [Vfs.start, hf, hfs, Except.ok.injEq] at h
        rw [← h]
        exact T.root fs ino hin
      | none =>
        cases hnode : vdev.devnode with
        | none =>
          rw [hfs, hnode] at hvdev
          exact hvdev.elim
        | some devnode =>
          rw [hfs, hnode] at hvdev
          obtain ⟨-, href, dev, rfl⟩ := hvdev
          cases hm : vdev.mountable with
          | true => simp [Vfs.start, hf, hfs, hnode, hm] at h
          | false =>
            simp only [Vfs.start, hf, hfs, hnode, hm, Bool.false_eq_true, if_false,
              Except.ok.injEq] at h
            rw [← h]
            exact href

theorem head_parsePath (path : List Byte) : (parsePath path).2.head? ≠ some SLASH := by
  have hskip : ∀ rest, (skipSlashes rest).head? ≠ some SLASH := by
    intro rest h
    have hh := List.head?_dropWhile_not (fun b => decide (b = SLASH)) rest
    unfold skipSlashes at h
    rw [h] at hh
    simp at hh
  have hplain : ∀ b, plain b = true → b ≠ SLASH := by
    intro b hb
    exact (of_decide_eq_true hb).2
  have hsplit := List.takeWhile_append_dropWhile (p := plain) (l := path)
  have hall := List.all_takeWhile (p := plain) (l := path)
  unfold parsePath
  cases hrest : path.dropWhile plain with
  | nil =>
    rw [hrest, List.append_nil] at hsplit
    rw [hsplit] at hall
    intro h
    exact hplain _ (List.all_eq_true.1 hall _ (List.mem_of_head? h)) rfl
  | cons b rest =>
    rw [hrest] at hsplit
    cases hname : path.takeWhile plain with
    | nil => exact hskip rest
    | cons c name =>
      rw [hname] at hsplit hall
      simp only
      split
      · exact hskip rest
      · rw [← hsplit]
        intro h
        have hc : c = SLASH := Option.some.inj h
        exact hplain c (List.all_eq_true.1 hall c List.mem_cons_self) hc

theorem components_nil : components [] = [] := rfl

/-- A path that is one name. -/
theorem components_single {path : List Byte} (hne : path ≠ []) (h : SLASH ∉ path) :
    components path = [path] := by
  unfold components
  rw [List.splitOn_eq_singleton h, List.filter_cons_of_pos (by simpa using hne), List.filter_nil]

theorem components_ne_nil {path : List Byte} (hne : path ≠ []) (h : path.head? ≠ some SLASH) :
    ∃ name rest, components path = name :: rest := by
  cases path with
  | nil => exact absurd rfl hne
  | cons c cs =>
    have hc : (c == SLASH) = false := beq_false_of_ne fun hc => h (congrArg some hc)
    obtain ⟨x, xs, hx⟩ := List.exists_cons_of_ne_nil (List.splitOn_ne_nil SLASH cs)
    unfold components
    rw [List.splitOn_cons_eq_if_modifyHead, hc, if_neg Bool.false_ne_true, hx, List.modifyHead_cons,
      List.filter_cons_of_pos (by simp)]
    exact ⟨_, _, rfl⟩

/-! ## `vfs_lookup` -/

/-- Where a path leads: to an inode, to nothing, or there is no start for it. -/
def Vfs.resolve (v : Vfs) (path : List Byte) : Except Int (Option Node) :=
  (v.start (parsePath path).1).map fun node => v.walk node (components (parsePath path).2)

/-- The start is held, and a name is looked up from there. -/
theorem there_vop_lookup (T : Tree inodes v) (h : At v.mount (bump v.refs node) v.opens t)
    (hp : t.Present node) (hs : v.IsStart inodes node) {path : List Byte} (hne : path ≠ [])
    (hhead : path.head? ≠ some SLASH)
    (hlen : (∃ dev, node = .device dev) ∨ path.length ≤ SFS_MAX_FNAME_LEN) :
    Wp (vop_lookup a node path)
      (fun found u => v.walk node [path] = some found ∧ u.Present node)
      (fun ret u => u.Present node ∧
        (¬ a.Fine ∨ ret = -E_NOENT ∧ v.walk node [path] = none)) X t := by
  have hcount : t.opens node ≤ t.refs node ∧ t.refs node < MAX_INODE_COUNT := by
    have hc := T.counts node
    rw [h.opens, h.refs, bump_self]
    omega
  unfold vop_lookup
  cases node with
  | device dev =>
    rw [wp_bind]
    apply there_inode_check hp hcount
    unfold dev_lookup
    rw [if_pos hne, wp_throw]
    exact ⟨hp, Or.inr ⟨rfl, rfl⟩⟩
  | sfs fs ino =>
    have hwalk : v.walk (.sfs fs ino) [path] =
        (findName (entries (v.call fs ino)) path).map (.sfs fs) := by
      unfold Vfs.walk
      rw [if_pos hs.2]
      cases findName (entries (v.call fs ino)) path <;> rfl
    have hlen : path.length ≤ SFS_MAX_FNAME_LEN := by
      rcases hlen with ⟨dev, hdev⟩ | hlen
      · cases hdev
      · exact hlen
    unfold isDir
    simp only [wp_bind, wp_get, wp_pure, wp_check]
    rw [call_eq h.mount, if_pos (decide_eq_true hs.2)]
    apply there_inode_check hp hcount
    rw [hwalk]
    apply Wp.mono (there_sfs_lookup T h rfl hp hs.1 hs.2 hne hhead hlen) (fun _ _ hq => hq) _ id
    rintro ret u ⟨hu, hr⟩
    refine ⟨hu, hr.imp_right fun hr => ⟨hr.1, ?_⟩⟩
    rw [hr.2]
    rfl

/-- The inode behind the start is found as if the rest of the path was one name. -/
theorem there_vfs_lookup (T : Tree inodes v) (path : List Byte)
    (hstart : v.start (parsePath path).1 = .ok node)
    (hlen : (∃ dev, node = .device dev) ∨ (parsePath path).2.length ≤ SFS_MAX_FNAME_LEN) :
    Wp (vfs_lookup a path)
      (fun found _ => if (parsePath path).2 = [] then found = node
        else v.walk node [(parsePath path).2] = some found)
      (fun ret _ => (parsePath path).2 ≠ [] ∧
        (¬ a.Fine ∨ ret = -E_NOENT ∧ v.walk node [(parsePath path).2] = none)) (¬ a.Fine) v := by
  have hs := start_isStart T hstart
  unfold vfs_lookup
  rw [wp_bind]
  have hat : At v.mount v.refs v.opens v := ⟨rfl, rfl, rfl⟩
  apply Wp.mono ((takes_get_device hat a path).and (there_get_device T path)) _ _ fun hx => hx.2
  · rintro ⟨rest, node'⟩ t ⟨ht, hrest, hnode, -, hp⟩
    simp only at ht hrest hnode hp
    rw [hstart, Except.ok.injEq] at hnode
    rw [← hnode] at ht hp
    rw [wp_ite, hrest, ← hnode]
    have hhead := head_parsePath path
    generalize (parsePath path).2 = rest at *
    by_cases hne : rest = []
    · rw [if_neg (not_not_intro hne), wp_pure, if_pos hne]
    · simp only [if_neg hne]
      rw [if_pos hne, wp_bind, wp_attempt]
      have hcount := (T.counts node).1
      have hdec : ∀ {r : Node → Nat} {u : Vfs} {E : Int → Vfs → Prop},
          At v.mount (bump r node) v.opens u →
          u.Present node → v.refs node ≤ r node →
          Wp (vop_ref_dec a.keeps node) (fun _ _ => True) E (¬ a.Fine) u := by
        intro r u E hu hpu hle
        apply Wp.mono (there_ref_dec hpu _ _ _ a.keeps) (fun _ _ _ => trivial) (fun _ _ he => he) id
        · rw [hu.refs, bump_self]
          exact Nat.succ_pos _
        · rw [hu.refs, hu.opens, bump_self]
          omega
        · rintro dev rfl
          have hpos : 0 < v.refs (.device dev) := hs
          rw [hu.refs, bump_self]
          omega
      apply Wp.mono
        ((takes_vop_lookup ht a rest).and (there_vop_lookup T ht hp hs hne hhead hlen)) _ _
        fun hx => hx.2
      · rintro found u ⟨hu, hfound, hpu⟩
        rw [bump_comm] at hu
        rw [wp_bind]
        apply Wp.mono (hdec hu hpu (le_bump _ _ _)) _ (fun _ _ he => he) id
        exact fun _ _ _ => hfound
      · rintro ret u ⟨hu, hpu, hret⟩
        rw [wp_bind]
        apply Wp.mono (hdec hu hpu (Nat.le_refl _)) _ (fun _ _ he => he) id
        exact fun _ _ _ => ⟨hne, hret⟩
  · rintro ret t ⟨-, hret⟩
    rw [hstart] at hret
    cases hret

/-- A directory does not look up a name that is longer than all names. -/
theorem vfs_lookup_long (T : Tree inodes v) (path : List Byte)
    (hstart : v.start (parsePath path).1 = .ok (.sfs fs ino))
    (hlen : SFS_MAX_FNAME_LEN < (parsePath path).2.length) :
    Wp (vfs_lookup a path) (fun _ _ => False) (fun _ _ => False) True v := by
  have hs := start_isStart T hstart
  have hne : (parsePath path).2 ≠ [] := by
    intro h0
    rw [h0] at hlen
    exact absurd hlen (Nat.not_lt_zero _)
  unfold vfs_lookup
  rw [wp_bind]
  have hat : At v.mount v.refs v.opens v := ⟨rfl, rfl, rfl⟩
  apply Wp.mono ((takes_get_device hat a path).and (there_get_device T path)) _ _
    fun _ => trivial
  · rintro ⟨rest, node⟩ t ⟨ht, hrest, hnode, -, hp⟩
    simp only at ht hrest hnode hp
    rw [hstart, Except.ok.injEq] at hnode
    rw [wp_ite, hrest, ← hnode, if_pos hne, wp_bind, wp_attempt]
    unfold vop_lookup isDir sfs_lookup sfs_lookup_once sfs_dirent_search_nolock
    simp only [wp_bind, wp_get, wp_pure, wp_check]
    split
    · apply wp_inode_check
      split
      · apply Wp.mono (wp_ref_inc ht) _ (fun _ _ he => he) id
        intro _ u hu
        rw [wp_ite, call_eq hu.mount, if_neg (not_not_intro hs.2), wp_bind, wp_attempt, wp_bind]
        apply wp_within
        rw [wp_bind, wp_check, if_neg (Nat.not_le.2 hlen)]
        trivial
      · trivial
    · trivial
  · rintro ret t ⟨-, hret⟩
    rw [hstart] at hret
    cases hret

/-- Where nothing fails, a path leads to its inode, which has a reference more, or to an error that
says that there is none. The counts are kept in any case. -/
def Resolves (a : Answers) (path : List Byte) (v : Vfs) : Prop :=
  Wp (vfs_lookup a path)
    (fun node t => v.resolve path = .ok (some node) ∧ t.refs = bump v.refs node ∧ t.opens = v.opens)
    (fun ret t => (t.refs = v.refs ∧ t.opens = v.opens) ∧ (a.Fine →
      v.resolve path = .error ret ∨
        v.resolve path = .ok none ∧ (ret = -E_NOENT ∨ ret = -E_NOTDIR)))
    (¬ a.Fine) v

/-- From a directory the path has at most one component, which is not too long, or it is no longer
than a name and leads to nothing. -/
def Straight (v : Vfs) (path : List Byte) : Prop :=
  match v.start (parsePath path).1 with
  | .ok (.sfs _ _) => (parsePath path).2.length ≤ SFS_MAX_FNAME_LEN ∧
    (SLASH ∉ (parsePath path).2 ∨ v.resolve path = .ok none)
  | _ => True

/-- No name has a slash in it. -/
theorem walk_slash (T : Tree inodes v) (hs : v.IsStart inodes node) {path : List Byte}
    (h : SLASH ∈ path) : v.walk node [path] = none := by
  cases node with
  | device dev => rfl
  | sfs fs ino =>
    unfold Vfs.walk
    rw [if_pos hs.2]
    cases hf : findName (entries (v.call fs ino)) path with
    | none => rfl
    | some sub =>
      obtain ⟨e, he, rfl, -⟩ := mem_of_findName hf
      exact absurd h (T.entry fs ino hs.1 hs.2 e he).2

theorem resolve_of_start {path : List Byte} (hstart : v.start (parsePath path).1 = .ok node) :
    v.resolve path = .ok (v.walk node (components (parsePath path).2)) := by
  unfold Vfs.resolve
  rw [hstart]
  rfl

/-- Without a start the lookup says why. -/
theorem resolves_of_error (T : Tree inodes v) {path : List Byte} {e : Int}
    (hstart : v.start (parsePath path).1 = .error e) : Resolves a path v := by
  have hat : At v.mount v.refs v.opens v := ⟨rfl, rfl, rfl⟩
  unfold Resolves vfs_lookup
  rw [wp_bind]
  apply Wp.mono ((takes_get_device hat a path).and (there_get_device T path)) _ _ fun hx => hx.2
  · rintro ⟨rest, node⟩ t ⟨-, -, hnode, -⟩
    rw [hstart] at hnode
    cases hnode
  · rintro ret t ⟨ht, hret⟩
    refine ⟨⟨ht.refs, ht.opens⟩, fun _ => Or.inl ?_⟩
    unfold Vfs.resolve
    rw [hret]
    rfl

/-- Where the rest of the path may be looked up as one name, it need not be cut at slashes, or leads
to nothing anyway. -/
theorem resolves_of_start (T : Tree inodes v) {path : List Byte}
    (hstart : v.start (parsePath path).1 = .ok node)
    (hlen : (∃ dev, node = .device dev) ∨ (parsePath path).2.length ≤ SFS_MAX_FNAME_LEN)
    (hcut : a.Fine → SLASH ∉ (parsePath path).2 ∨ v.resolve path = .ok none) :
    Resolves a path v := by
  have hat : At v.mount v.refs v.opens v := ⟨rfl, rfl, rfl⟩
  have hs := start_isStart T hstart
  have hsingle : (parsePath path).2 ≠ [] → SLASH ∉ (parsePath path).2 →
      v.resolve path = .ok (v.walk node [(parsePath path).2]) := by
    intro hne hno
    rw [resolve_of_start hstart, components_single hne hno]
  apply Wp.mono ((takes_vfs_lookup hat a path).and (there_vfs_lookup T path hstart hlen)) _ _
    fun hx => hx.2
  · rintro found t ⟨ht, hfound⟩
    refine ⟨?_, ht.refs, ht.opens⟩
    split at hfound
    · rename_i hnil
      rw [resolve_of_start hstart, hnil, components_nil, hfound]
      rfl
    · rename_i hne
      by_cases hno : SLASH ∈ (parsePath path).2
      · rw [walk_slash T hs hno] at hfound
        cases hfound
      · rw [hsingle hne hno, hfound]
  · rintro ret t ⟨ht, hne, hret⟩
    refine ⟨⟨ht.refs, ht.opens⟩, fun hf => Or.inr ?_⟩
    obtain ⟨rfl, hnone⟩ := hret.resolve_left (not_not_intro hf)
    refine ⟨?_, Or.inl rfl⟩
    rcases hcut hf with hno | hnone'
    · rw [hsingle hne hno, hnone]
    · exact hnone'

/-- `vfs_lookup` follows the straight paths, and no others. -/
theorem vfs_lookup_resolves (T : Tree inodes v) (a : Answers) (path : List Byte) :
    Resolves a path v ↔ (a.Fine → Straight v path) := by
  have hat : At v.mount v.refs v.opens v := ⟨rfl, rfl, rfl⟩
  have hnever : ¬ Wp (vfs_lookup a path) (fun _ _ => False) (fun _ _ => False) False v := by
    intro h
    obtain ⟨-, -, -, hfalse⟩ := h.runs
    exact hfalse
  unfold Straight
  cases hstart : v.start (parsePath path).1 with
  | error e => exact iff_of_true (resolves_of_error T hstart) fun _ => trivial
  | ok node =>
    cases node with
    | device dev =>
      refine iff_of_true (resolves_of_start T hstart (Or.inl ⟨dev, rfl⟩) fun _ => ?_)
        fun _ => trivial
      by_cases hne : (parsePath path).2 = []
      · rw [hne]
        exact Or.inl List.not_mem_nil
      · obtain ⟨name, rest, hcomp⟩ := components_ne_nil hne (head_parsePath path)
        rw [resolve_of_start hstart, hcomp]
        exact Or.inr rfl
    | sfs fs ino =>
      have hs := start_isStart T hstart
      simp only
      by_cases hlen : (parsePath path).2.length ≤ SFS_MAX_FNAME_LEN
      · constructor
        · intro h hf
          refine ⟨hlen, ?_⟩
          by_contra hn
          rw [not_or, not_not] at hn
          apply hnever
          apply Wp.mono (h.and (there_vfs_lookup T path hstart (Or.inr hlen))) _ _ fun hx => hx.1 hf
          · rintro found t ⟨-, hfound⟩
            rw [if_neg (List.ne_nil_of_mem hn.1), walk_slash T hs hn.1] at hfound
            cases hfound
          · rintro ret t ⟨⟨-, hret⟩, -⟩
            rcases hret hf with herr | ⟨hnone, -⟩
            · rw [resolve_of_start hstart] at herr
              cases herr
            · exact hn.2 hnone
        · exact fun h => resolves_of_start T hstart (Or.inr hlen) fun hf => (h hf).2
      · have hlong := vfs_lookup_long (a := a) T path hstart (Nat.lt_of_not_le hlen)
        constructor
        · intro h hf
          exact (hnever (Wp.mono (h.and hlong) (fun _ _ hq => hq.2) (fun _ _ he => he.2)
            fun hx => hx.1 hf)).elim
        · intro h
          have hf : ¬ a.Fine := fun hf => hlen (h hf).1
          exact Wp.mono hlong (fun _ _ hq => hq.elim) (fun _ _ he => he.elim) fun _ => hf

end

/-! ## A small tree -/

theorem fine_fine : Answers.fine.Fine :=
  ⟨⟨rfl, rfl, rfl⟩, rfl, fun _ _ => rfl, ⟨rfl, rfl, rfl⟩⟩

theorem oneByteFile_root : Mapped (fun b => b < 4 ∨ b = 7) (oneByteFile.call 0 1) where
  free := ⟨by decide, by decide, by decide, by decide +kernel, by decide +kernel⟩
  ledger := ⟨by decide +kernel, by decide +kernel, by decide +kernel, by decide +kernel,
    by decide +kernel⟩
  bound := by decide
  none := dotAndA_mapped.none
  zero := by decide
  own := by decide

theorem oneByteFile_file : Mapped (fun b => b < 7) (oneByteFile.call 0 3) where
  free := ⟨by decide, by decide, by decide, by decide +kernel, by decide +kernel⟩
  ledger := ⟨by decide +kernel, by decide +kernel, by decide +kernel, by decide +kernel,
    by decide +kernel⟩
  bound := by decide
  none := by
    intro i hi _
    have h1 : 1 ≤ i := hi
    have h0 : i ≠ 0 := by omega
    simp [bmap, Vfs.call, oneByteFile, h0]
  zero := by decide
  own := by decide

theorem oneByteFile_tree : Tree (fun fs ino => fs = 0 ∧ (ino = 1 ∨ ino = 3)) oneByteFile where
  mapped := by
    rintro fs ino ⟨rfl, rfl | rfl⟩
    · exact ⟨_, oneByteFile_root⟩
    · exact ⟨_, oneByteFile_file⟩
  block := by
    rintro fs ino ⟨rfl, rfl | rfl⟩
    · decide +kernel
    · decide +kernel
  links := by
    rintro fs ino ⟨rfl, rfl | rfl⟩
    · decide
    · decide
  type := by
    rintro fs ino ⟨rfl, rfl | rfl⟩
    · decide
    · decide
  entry := by
    rintro fs ino ⟨rfl, rfl | rfl⟩ hd
    · decide +kernel
    · exact absurd hd (by decide)
  root := by
    rintro fs ino ⟨rfl, -⟩
    exact ⟨⟨rfl, Or.inl rfl⟩, by decide⟩
  held := by
    rintro node (h | h)
    · obtain rfl := Option.some.inj h
      exact ⟨rfl, by decide, 0, 1, rfl, ⟨rfl, Or.inl rfl⟩, by decide⟩
    · cases h
  device := by
    intro vdev h
    cases h
  counts := by
    intro node
    unfold Vfs.opens Vfs.refs oneByteFile
    by_cases h : node = .sfs 0 1
    · simp only [h, if_true]
      decide
    · simp only [h, if_false]
      decide

theorem vfs_lookup_resolves_a : Resolves .fine [97] oneByteFile := by
  have hpath : Straight oneByteFile [97] := ⟨by decide, Or.inl (by decide)⟩
  exact (vfs_lookup_resolves oneByteFile_tree .fine [97]).2 fun _ => hpath

/-- `./a` is the file `a`, and is not found. -/
theorem dot_slash_not_found :
    ¬ ∀ (inodes : Fs → Nat → Prop) (v : Vfs) (a : Answers) (path : List Byte),
      Tree inodes v → Resolves a path v := by
  intro h
  have hres : oneByteFile.resolve [46, 47, 97] = .ok (some (.sfs 0 3)) := by decide +kernel
  have hnot : ¬ (vfs_lookup .fine [46, 47, 97] oneByteFile).Returns fun _ _ => True := by
    decide +kernel
  have hr := h _ oneByteFile .fine [46, 47, 97] oneByteFile_tree
  unfold Resolves at hr
  cases hrun : vfs_lookup .fine [46, 47, 97] oneByteFile with
  | ok node t =>
    rw [hrun] at hnot
    exact hnot trivial
  | fail ret t =>
    rw [wp_of_fail hrun, hres] at hr
    rcases hr.2 fine_fine with he | ⟨he, -⟩
    · cases he
    · cases he
  | stop =>
    rw [wp_of_stop hrun] at hr
    exact hr fine_fine

end nehcpu.kernel.vfs
