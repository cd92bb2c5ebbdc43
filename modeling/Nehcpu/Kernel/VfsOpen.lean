-- What `vfs_open` leaves: the counts of the inodes, which are right but for one way out, and the
-- data of the file, which an `O_CREAT` cuts off.
import Nehcpu.Kernel.SfsDirOk
import Nehcpu.Kernel.Vfs

namespace nehcpu.kernel.vfs

open Function nehcpu.command nehcpu.command.Cmd nehcpu.buffer nehcpu.kernel.fs
open filetable (accmode flag O_CREAT O_EXCL O_TRUNC O_APPEND)

/-! ## Counts -/

/-- An inode that is not in memory has no references. -/
def Vfs.refs (v : Vfs) (node : Node) : Nat := (v.mem node).elim 0 inode.ref_count

def Vfs.opens (v : Vfs) (node : Node) : Nat := (v.mem node).elim 0 inode.open_count

def bump (f : Node → Nat) (node : Node) : Node → Nat := update f node (f node + 1)

theorem bump_comm (f : Node → Nat) (a b : Node) : bump (bump f a) b = bump (bump f b) a := by
  unfold bump
  by_cases h : a = b
  · rw [h]
  · rw [update_of_ne (Ne.symm h), update_of_ne h, update_comm h]

theorem bump_ne (f : Node → Nat) (node : Node) : bump f node ≠ f := by
  intro h
  have hn := congrFun h node
  rw [bump, update_self] at hn
  omega

/-- What the inodes hold, the references and the opens. -/
structure At (m : Fs → Mount) (r o : Node → Nat) (v : Vfs) : Prop where
  mount : v.mount = m
  refs : v.refs = r
  opens : v.opens = o

section

variable {m : Fs → Mount} {r o : Node → Nat} {v : Vfs} {node : Node} {i : inode} {X : Prop}

theorem At.of_mem (h : At m r o v) (hm : v.mem node = some i) :
    r node = i.ref_count ∧ o node = i.open_count := by
  constructor
  · rw [← h.refs, Vfs.refs, hm]
    rfl
  · rw [← h.opens, Vfs.opens, hm]
    rfl

theorem At.of_none (h : At m r o v) (hm : v.mem node = none) : r node = 0 ∧ o node = 0 := by
  constructor
  · rw [← h.refs, Vfs.refs, hm]
    rfl
  · rw [← h.opens, Vfs.opens, hm]
    rfl

/-- The counts of one inode change. -/
theorem wp_setInode (h : At m r o v) (i : Option inode) (r' o' : Node → Nat)
    (hr : r' = update r node (i.elim 0 inode.ref_count))
    (ho : o' = update o node (i.elim 0 inode.open_count)) {E : Int → Vfs → Prop} :
    Wp (setInode node i) (fun _ t => At m r' o' t) E True v where
  mount := h.mount
  refs := by
    funext n
    rw [hr, ← h.refs]
    by_cases hn : n = node
    · simp [Vfs.refs, hn]
    · simp [Vfs.refs, hn]
  opens := by
    funext n
    rw [ho, ← h.opens]
    by_cases hn : n = node
    · simp [Vfs.opens, hn]
    · simp [Vfs.opens, hn]

theorem wp_getInode {Q : inode → Vfs → Prop} {E : Int → Vfs → Prop}
    (h : ∀ i, v.mem node = some i → Q i v) : Wp (getInode node) Q E True v := by
  unfold getInode
  rw [wp_bind, wp_get]
  cases hm : v.mem node with
  | none => trivial
  | some i => exact h i hm

theorem wp_inode_check {Q : Unit → Vfs → Prop} {E : Int → Vfs → Prop} (h : Q () v) :
    Wp (inode_check node) Q E True v := by
  unfold inode_check
  rw [wp_bind]
  apply wp_getInode
  intro i _
  rw [wp_check]
  split
  · exact h
  · trivial

theorem wp_ref_inc (h : At m r o v) {E : Int → Vfs → Prop} :
    Wp (vop_ref_inc node) (fun _ t => At m (bump r node) o t) E True v := by
  unfold vop_ref_inc
  rw [wp_bind]
  apply wp_getInode
  intro i hm
  obtain ⟨hr, ho⟩ := h.of_mem hm
  apply wp_setInode h
  · rw [bump, hr]
    rfl
  · rw [Option.elim_some, ← ho, update_eq_self]

theorem wp_open_inc (h : At m r o v) {E : Int → Vfs → Prop} :
    Wp (vop_open_inc node) (fun _ t => At m r (bump o node) t) E True v := by
  unfold vop_open_inc
  rw [wp_bind]
  apply wp_getInode
  intro i hm
  obtain ⟨hr, ho⟩ := h.of_mem hm
  apply wp_setInode h
  · rw [Option.elim_some, ← hr, update_eq_self]
  · rw [bump, ho]
    rfl

theorem wp_open_dec (h : At m r (bump o node) v) {E : Int → Vfs → Prop} :
    Wp (vop_open_dec node) (fun _ t => At m r o t) E True v := by
  unfold vop_open_dec
  rw [wp_bind]
  apply wp_getInode
  intro i hm
  obtain ⟨hr, ho⟩ := h.of_mem hm
  rw [bump, update_self] at ho
  rw [wp_bind, wp_check]
  split
  · rw [wp_bind]
    apply Wp.mono (wp_setInode h _ r o _ _) _ (fun _ _ he => he) id
    · rw [Option.elim_some, ← hr, update_eq_self]
    · rw [bump, update_idem, Option.elim_some, ← ho, Nat.add_sub_cancel, update_eq_self]
    · intro _ t ht
      rw [wp_ite]
      split
      · exact wp_inode_check ht
      · exact ht
  · trivial

theorem wp_reclaim (h : At m r o v) (keeps : Node → Bool) {E : Int → Vfs → Prop} :
    Wp (vop_reclaim keeps node) (fun _ t => At m r o t) E True v := by
  unfold vop_reclaim
  rw [wp_bind]
  apply wp_inode_check
  cases node with
  | device dev => trivial
  | sfs fs ino =>
    simp only [wp_ite]
    split
    · exact h
    · rw [wp_bind]
      apply wp_getInode
      intro i hm
      obtain ⟨hr, ho⟩ := h.of_mem hm
      rw [wp_bind, wp_check]
      split
      · rename_i h0
        apply wp_setInode h
        · rw [Option.elim_none, ← h0.1, ← hr, update_eq_self]
        · rw [Option.elim_none, ← h0.2, ← ho, update_eq_self]
      · trivial

theorem wp_ref_dec (h : At m (bump r node) o v) (keeps : Node → Bool) {E : Int → Vfs → Prop} :
    Wp (vop_ref_dec keeps node) (fun _ t => At m r o t) E True v := by
  unfold vop_ref_dec
  rw [wp_bind]
  apply wp_getInode
  intro i hm
  obtain ⟨hr, ho⟩ := h.of_mem hm
  rw [bump, update_self] at hr
  rw [wp_bind, wp_check]
  split
  · rw [wp_bind]
    apply Wp.mono (wp_setInode h _ r o _ _) _ (fun _ _ he => he) id
    · rw [bump, update_idem, Option.elim_some, ← hr, Nat.add_sub_cancel, update_eq_self]
    · rw [Option.elim_some, ← ho, update_eq_self]
    · intro _ t ht
      rw [wp_ite]
      split
      · exact wp_reclaim ht keeps
      · exact ht
  · trivial

end

/-! ## Lookups -/

section

variable {m : Fs → Mount} {r o : Node → Nat} {v : Vfs} {node : Node} {fs : Fs} {ino : Nat}
  {α : Type}

theorem setCall_call (v : Vfs) (fs : Fs) (ino : Nat) : v.setCall fs ino (v.call fs ino) = v := by
  unfold Vfs.setCall Vfs.call
  simp only [update_eq_self]

theorem wp_within {c : SfsM α} {Q : α → Vfs → Prop} {E : Int → Vfs → Prop} {X : Prop}
    (h : Wp c (fun a t => Q a (v.setCall fs ino t)) (fun e t => E e (v.setCall fs ino t)) X
      (v.call fs ino)) : Wp (within fs ino c) Q E X v := by
  unfold Wp within at *
  cases hc : c (v.call fs ino) with
  | ok a t =>
    rw [hc] at h
    exact h
  | fail e t =>
    rw [hc] at h
    exact h
  | stop =>
    rw [hc] at h
    exact h

theorem wp_within_still {c : SfsM α} (hc : Still c (v.call fs ino)) (h : At m r o v) :
    Wp (within fs ino c) (fun _ t => At m r o t) (fun _ t => At m r o t) True v := by
  apply wp_within
  apply Wp.mono hc _ _ id
  · rintro _ t ht
    rw [ht, setCall_call]
    exact h
  · rintro _ t ht
    rw [ht, setCall_call]
    exact h

/-- A lookup of any kind: the inode that is found has a reference more, and a failure leaves all as
it was. -/
def Takes (c : VfsM Node) (m : Fs → Mount) (r o : Node → Nat) (v : Vfs) : Prop :=
  Wp c (fun node t => At m (bump r node) o t) (fun _ t => At m r o t) True v

theorem takes_ref_inc (h : At m r o v) (node : Node) :
    Takes (do
      vop_ref_inc node
      pure node) m r o v := by
  unfold Takes
  rw [wp_bind]
  exact wp_ref_inc h

theorem takes_load_inode (h : At m r o v) (a : Load) : Takes (sfs_load_inode a fs ino) m r o v := by
  unfold sfs_load_inode Takes
  rw [wp_bind, wp_get]
  cases hm : v.mem (.sfs fs ino) with
  | some i => exact takes_ref_inc h _
  | none =>
    obtain ⟨hr, ho⟩ := h.of_none hm
    simp only [wp_bind, wp_ite]
    split
    · exact h
    · have hread : Still (do
          assert_inuse ino
          let _ ← sfs_rbuf a.read sizeof_din ino 0
          pure ()) (v.call fs ino) :=
        (still_assert_inuse ino).bind fun _ => (still_rbuf _ _ _ _).bind fun _ => still_pure _
      apply Wp.mono (wp_within_still hread h) _ (fun _ _ he => he) id
      intro _ t ht
      rw [wp_get, wp_check]
      split
      · split
        · exact ht
        · rw [wp_check]
          split
          · apply wp_setInode ht
            · rw [bump, hr]
              rfl
            · rw [Option.elim_some, ← ho, update_eq_self]
          · trivial
      · trivial

theorem takes_get_root (h : At m r o v) (a : Answers) {E : Int → Vfs → Prop} :
    Wp (fsop_get_root a fs) (fun node t => At m (bump r node) o t) E True v := by
  unfold fsop_get_root
  rw [wp_bind, wp_attempt]
  exact Wp.mono (takes_load_inode h a.root) (fun _ _ ht => ht) (fun _ _ _ => trivial) id

theorem takes_lookup_once (h : At m r o v) (a : Once) (name : List Byte) :
    Takes (sfs_lookup_once a fs ino name) m r o v := by
  unfold sfs_lookup_once Takes
  rw [wp_bind]
  apply Wp.mono (wp_within_still (still_search _ _ _) h) _ (fun _ _ he => he) id
  exact fun sub t ht => takes_load_inode ht a.load

/-- A lookup below an inode that is held for this time only. -/
theorem takes_below (h : At m (bump r node) o v) (keeps : Node → Bool) {c : VfsM Node}
    (hc : ∀ {r v}, At m r o v → Takes c m r o v) :
    Takes (do
      let res ← attempt c
      vop_ref_dec keeps node
      match res with
      | .ok found => pure found
      | .error ret => throw ret) m r o v := by
  unfold Takes
  rw [wp_bind, wp_attempt]
  apply Wp.mono (hc h) _ _ id
  · intro found t ht
    rw [bump_comm] at ht
    rw [wp_bind]
    exact wp_ref_dec ht keeps
  · intro ret t ht
    rw [wp_bind]
    exact wp_ref_dec ht keeps

theorem takes_sfs_lookup (h : At m r o v) (a : Answers) (path : List Byte) :
    Takes (sfs_lookup a fs ino path) m r o v := by
  unfold sfs_lookup Takes
  simp only [wp_bind, wp_check]
  split
  · apply Wp.mono (wp_ref_inc h) _ (fun _ _ he => he) id
    intro _ t ht
    rw [wp_get, wp_ite]
    split
    · rw [wp_bind]
      exact wp_ref_dec ht a.keeps
    · exact takes_below ht a.keeps fun h => takes_lookup_once h a.once path
  · trivial

theorem takes_vop_lookup (h : At m r o v) (a : Answers) (path : List Byte) :
    Takes (vop_lookup a node path) m r o v := by
  unfold vop_lookup Takes
  cases node with
  | device dev =>
    rw [wp_bind]
    apply wp_inode_check
    unfold dev_lookup
    rw [wp_ite]
    split
    · exact h
    · exact takes_ref_inc h _
  | sfs fs ino =>
    unfold isDir
    simp only [wp_bind, wp_get, wp_pure, wp_check]
    split
    · exact wp_inode_check (takes_sfs_lookup h a path)
    · trivial

theorem takes_get_curdir (h : At m r o v) : Takes vfs_get_curdir m r o v := by
  unfold vfs_get_curdir Takes
  rw [wp_bind, wp_get]
  cases v.pwd with
  | some node => exact takes_ref_inc h node
  | none => exact h

theorem takes_get_bootfs (h : At m r o v) : Takes vfs_get_bootfs m r o v := by
  unfold vfs_get_bootfs Takes
  rw [wp_bind, wp_get]
  cases v.bootfs_node with
  | some node => exact takes_ref_inc h node
  | none => exact h

theorem takes_vfs_get_root (h : At m r o v) (a : Answers) (devname : List Byte) :
    Takes (vfs_get_root a devname) m r o v := by
  unfold vfs_get_root Takes
  rw [wp_bind, wp_get]
  split
  · exact h
  · split
    · exact takes_get_root h a
    · rw [wp_ite]
      split
      · split
        · exact takes_ref_inc h _
        · trivial
      · exact h

theorem takes_currentRoot (h : At m r o v) (a : Answers) : Takes (currentRoot a) m r o v := by
  unfold currentRoot Takes
  rw [wp_bind]
  apply Wp.mono (takes_get_curdir h) _ (fun _ _ he => he) id
  intro node t ht
  cases node with
  | device dev => trivial
  | sfs fs ino =>
    rw [wp_bind]
    apply Wp.mono (takes_get_root ht a) _ (fun _ _ he => he) id
    intro root u hu
    rw [bump_comm] at hu
    rw [wp_bind]
    exact wp_ref_dec hu a.keeps

/-- The start of a path is held for the caller. -/
theorem takes_get_device (h : At m r o v) (a : Answers) (path : List Byte) :
    Wp (get_device a path) (fun res t => At m (bump r res.2) o t) (fun _ t => At m r o t) True
      v := by
  unfold get_device
  split
  · rw [wp_bind]
    exact takes_get_curdir h
  · simp only [wp_ite]
    split
    · rw [wp_bind]
      exact takes_get_curdir h
    · split
      · rw [wp_bind]
        exact takes_vfs_get_root h a _
      · split
        · rw [wp_bind]
          exact takes_get_bootfs h
        · rw [wp_bind]
          exact takes_currentRoot h a

theorem takes_vfs_lookup (h : At m r o v) (a : Answers) (path : List Byte) :
    Takes (vfs_lookup a path) m r o v := by
  unfold vfs_lookup Takes
  rw [wp_bind]
  apply Wp.mono (takes_get_device h a path) _ (fun _ _ he => he) id
  rintro ⟨sub, node⟩ t ht
  rw [wp_ite]
  split
  · exact takes_below ht a.keeps fun h => takes_vop_lookup h a sub
  · exact ht

end

/-! ## `vfs_open` -/

section

variable {m : Fs → Mount} {r o : Node → Nat} {v : Vfs} {node : Node} {a : Answers}
  {open_flags : Flags} {path : List Byte}

/-- The counts, whatever the inodes hold. -/
def CountsAt (r o : Node → Nat) (t : Vfs) : Prop := ∃ m, At m r o t

theorem wp_vop_open (h : At m r o v) :
    Wp (vop_open a node open_flags) (fun _ t => At m r o t) (fun _ t => At m r o t) True v := by
  unfold vop_open
  rw [wp_bind]
  apply wp_inode_check
  cases node with
  | device dev =>
    unfold dev_open
    simp only [wp_ite]
    split
    · exact h
    · split
      · exact h
      · exact h
  | sfs fs ino =>
    unfold isDir sfs_opendir
    simp only [wp_bind, wp_get, wp_pure, wp_ite]
    split
    · split
      · rw [wp_ite]
        split
        · exact h
        · exact h
      · exact h
    · exact h

/-- What `vop_truncate` leaves of the inode, in the words of the file system. -/
def Truncates (a : Answers) (node : Node) (len : Int) (v t : Vfs) : Prop :=
  ∃ fs ino c, node = .sfs fs ino ∧ (v.call fs ino).sin.din.type ≠ SFS_TYPE_DIR ∧
    sfs_truncfile a.truncate len (v.call fs ino) = .ok () c ∧ t = v.setCall fs ino c

theorem wp_vop_truncate (h : At m r o v) (len : Int) :
    Wp (vop_truncate a node len) (fun _ t => CountsAt r o t ∧ Truncates a node len v t)
      (fun _ t => CountsAt r o t) True v := by
  unfold vop_truncate
  cases node with
  | device dev => trivial
  | sfs fs ino =>
    unfold isDir
    simp only [wp_bind, wp_get, wp_pure, wp_check]
    split
    · rename_i hd
      apply wp_inode_check
      apply wp_within
      unfold Wp
      cases hc : sfs_truncfile a.truncate len (v.call fs ino) with
      | ok _ c =>
        refine ⟨⟨_, rfl, h.refs, h.opens⟩, fs, ino, c, rfl, by simpa using hd, hc, rfl⟩
      | fail e c => exact ⟨_, rfl, h.refs, h.opens⟩
      | stop => trivial
    · trivial

/-- The inode is opened once more, and its truncation is all that happens to the data. -/
theorem wp_openNode (h : At m (bump r node) o v) :
    Wp (openNode a node open_flags)
      (fun n t => n = node ∧ CountsAt (bump r node) (bump o node) t ∧
        if flag open_flags O_TRUNC ∨ flag open_flags O_CREAT then
          ∃ u, u.mount = m ∧ Truncates a node 0 u t
        else t.mount = m)
      (fun _ t => CountsAt r o t) True v := by
  unfold openNode
  rw [wp_bind, wp_attempt]
  apply Wp.mono (wp_vop_open h) _ _ id
  · intro _ t ht
    rw [wp_bind]
    apply Wp.mono (wp_open_inc ht) _ (fun _ _ he => he) id
    intro _ t ht
    rw [wp_ite]
    split
    · rw [wp_bind, wp_attempt]
      apply Wp.mono (wp_vop_truncate ht 0) _ _ id
      · exact fun _ u hu => ⟨rfl, hu.1, t, ht.mount, hu.2⟩
      · rintro ret t ⟨m, ht⟩
        rw [wp_bind]
        apply Wp.mono (wp_open_dec ht) _ (fun _ _ he => he) id
        intro _ t ht
        rw [wp_bind]
        exact Wp.mono (wp_ref_dec ht a.keeps) (fun _ _ ht => ⟨m, ht⟩) (fun _ _ he => he) id
    · exact ⟨rfl, ⟨m, ht⟩, ht.mount⟩
  · intro ret t ht
    rw [wp_bind]
    exact Wp.mono (wp_ref_dec ht a.keeps) (fun _ _ ht => ⟨m, ht⟩) (fun _ _ he => he) id

/-- The flags that `vfs_open` does not take. -/
def Refused (open_flags : Flags) : Prop :=
  match accmode open_flags with
  | none => True
  | some (_, can_write) => flag open_flags O_TRUNC = true ∧ can_write = false

/-- The path leads to an inode. -/
def Leads (a : Answers) (path : List Byte) (v : Vfs) : Prop :=
  ∃ node t, vfs_lookup a path v = .ok node t

/-- A failed open leaves the counts as they were, and another one opens the inode once more. -/
def Accounts (a : Answers) (path : List Byte) (open_flags : Flags) (v : Vfs) : Prop :=
  Wp (vfs_open a path open_flags)
    (fun node t => t.refs = bump v.refs node ∧ t.opens = bump v.opens node)
    (fun _ t => t.refs = v.refs ∧ t.opens = v.opens) True v

/-- The counts are right but where a file that exists should not. -/
theorem vfs_open_accounts (a : Answers) (path : List Byte) (open_flags : Flags) (v : Vfs) :
    Accounts a path open_flags v ↔
      ¬ (¬ Refused open_flags ∧ flag open_flags O_EXCL = true ∧ flag open_flags O_CREAT = true ∧
        Leads a path v) := by
  have h : At v.mount v.refs v.opens v := ⟨rfl, rfl, rfl⟩
  unfold Accounts vfs_open Refused Leads
  cases accmode open_flags with
  | none => exact iff_of_true ⟨rfl, rfl⟩ fun hn => hn.1 trivial
  | some mode =>
    obtain ⟨readable, can_write⟩ := mode
    simp only
    by_cases ht : flag open_flags O_TRUNC ∧ ¬ can_write
    · rw [if_pos ht]
      exact iff_of_true ⟨rfl, rfl⟩ fun hn => hn.1 ⟨ht.1, by simpa using ht.2⟩
    · have hflags : ¬ (flag open_flags O_TRUNC = true ∧ can_write = false) := by simpa using ht
      have hl := takes_vfs_lookup h a path
      unfold Takes at hl
      rw [if_neg ht, wp_bind, wp_attempt]
      cases hv : vfs_lookup a path v with
      | ok node t =>
        rw [wp_of_ok hv] at hl ⊢
        simp only
        by_cases hex : flag open_flags O_EXCL ∧ flag open_flags O_CREAT
        · rw [if_pos hex]
          refine iff_of_false ?_ fun hn => hn ⟨hflags, hex.1, hex.2, node, t, rfl⟩
          rintro ⟨hr, -⟩
          exact bump_ne v.refs node (hl.refs.symm.trans hr)
        · rw [if_neg hex]
          refine iff_of_true ?_ fun hn => hex ⟨hn.2.1, hn.2.2.1⟩
          apply Wp.mono (wp_openNode hl) _ _ id
          · rintro _ u ⟨rfl, ⟨m, hu⟩, -⟩
            exact ⟨hu.refs, hu.opens⟩
          · rintro _ u ⟨m, hu⟩
            exact ⟨hu.refs, hu.opens⟩
      | fail ret t =>
        have hnone : ¬ ∃ node t', (Outcome.fail ret t : Outcome Vfs Int Node) = .ok node t' := by
          rintro ⟨node, t', hn⟩
          cases hn
        rw [wp_of_fail hv] at hl ⊢
        refine iff_of_true ?_ fun hn => hnone hn.2.2.2
        rw [wp_ite]
        split
        · unfold vfs_lookup_parent
          rw [wp_bind, wp_bind]
          apply Wp.mono (takes_get_device hl a (editedPath path)) _ _ id
          · exact fun _ _ _ => trivial
          · exact fun _ u hu => ⟨hu.refs, hu.opens⟩
        · exact ⟨hl.refs, hl.opens⟩
      | stop =>
        have hnone : ¬ ∃ node t, (Outcome.stop : Outcome Vfs Int Node) = .ok node t := by
          rintro ⟨node, t, hn⟩
          cases hn
        rw [wp_of_stop hv]
        exact iff_of_true trivial fun hn => hnone hn.2.2.2

end

/-- A system with the device `stdin` alone. -/
def stdinOnly : Vfs where
  mem node := if node = .device 0 then some ⟨1, 0⟩ else none
  mount _ := ⟨dotAndA.sfs, fun _ => dotAndA.sin⟩
  vdev_list := [⟨[115, 116, 100, 105, 110], some (.device 0), none, false⟩]
  bootfs_node := none
  pwd := none
  filemap i := ⟨.FD_NONE, false, false, i, 0#32, none, 0⟩

/-- Nothing fails. -/
def Load.fine : Load := ⟨true, 0, true⟩

def Answers.fine : Answers := ⟨.fine, ⟨true, quiet, .fine⟩, fun _ => false, 0, quiet⟩

/-- `stdin:` with `O_CREAT | O_EXCL` keeps a reference. -/
theorem exclusive_open_leaks :
    ¬ ∀ (a : Answers) (path : List Byte) (open_flags : Flags) (v : Vfs),
      Accounts a path open_flags v := by
  intro h
  have hrun : vfs_open .fine [115, 116, 100, 105, 110, 58] (O_CREAT ||| O_EXCL) stdinOnly =
      .fail (-E_EXISTS) { stdinOnly with
        mem := update stdinOnly.mem (.device 0) (some ⟨2, 0⟩) } := rfl
  have hopen := h .fine [115, 116, 100, 105, 110, 58] (O_CREAT ||| O_EXCL) stdinOnly
  unfold Accounts at hopen
  rw [wp_of_fail hrun] at hopen
  exact absurd (congrFun hopen.1 (.device 0)) (by decide)

/-! ## What an open does to the data -/

section

variable {m : Fs → Mount} {v t : Vfs} {node : Node} {a : Answers} {open_flags : Flags}
  {path : List Byte} {fd : Int} {X : Prop}

/-- The bytes of a file. -/
def contents (c : Call) : List Byte := (List.range c.sin.din.size).map (cell c)

/-- A call that leaves what the inodes hold. -/
theorem wp_vop_fstat (h : v.mount = m) :
    Wp (vop_fstat node) (fun _ t => t.mount = m) (fun _ _ => True) True v := by
  unfold vop_fstat
  rw [wp_bind]
  apply wp_inode_check
  cases node with
  | device dev => trivial
  | sfs fs ino =>
    rw [wp_bind, wp_get, wp_bind, wp_check]
    split
    · exact h
    · trivial

/-- What an open does to the data, from what the inodes held on. -/
def Cuts (a : Answers) (open_flags : Flags) (m : Fs → Mount) (node : Node) (t : Vfs) : Prop :=
  if flag open_flags O_TRUNC ∨ flag open_flags O_CREAT then
    ∃ u w, u.mount = m ∧ Truncates a node 0 u w ∧ t.mount = w.mount
  else t.mount = m

theorem wp_vfs_open_cuts (h : v.mount = m) :
    Wp (vfs_open a path open_flags) (fun node t => Cuts a open_flags m node t)
      (fun _ _ => True) True v := by
  have hat : At m v.refs v.opens v := ⟨h, rfl, rfl⟩
  unfold vfs_open
  split
  · trivial
  · rw [wp_ite]
    split
    · trivial
    · simp only
      rw [wp_bind, wp_attempt]
      apply Wp.mono (takes_vfs_lookup hat a path) _ _ id
      · intro node t ht
        rw [wp_ite]
        split
        · trivial
        · apply Wp.mono (wp_openNode ht) _ (fun _ _ _ => trivial) id
          rintro _ u ⟨rfl, -, hu⟩
          unfold Cuts
          split
          · rename_i hf
            rw [if_pos hf] at hu
            obtain ⟨w, hw, hcut⟩ := hu
            exact ⟨w, u, hw, hcut, rfl⟩
          · rename_i hf
            rw [if_neg hf] at hu
            exact hu
      · intro ret t ht
        rw [wp_ite]
        split
        · unfold vfs_lookup_parent
          rw [wp_bind, wp_bind]
          apply Wp.mono (takes_get_device ht a (editedPath path)) _ _ id
          · exact fun _ _ _ => trivial
          · exact fun _ _ _ => trivial
        · trivial

/-- The file `fd` is open on the inode. -/
def OpenOn (t : Vfs) (fd : Int) (node : Node) : Prop :=
  ∃ i, (t.filemap i).fd = fd ∧ (t.filemap i).status = .FD_OPENED ∧ (t.filemap i).node = some node

theorem wp_openFile (h : v.mount = m) (i : filetable.Fd) (readable writable : Bool) :
    Wp (openFile i readable writable open_flags node)
      (fun fd t => OpenOn t fd node ∧ t.mount = m) (fun _ _ => True) True v := by
  have hpos : Wp (openPos node open_flags) (fun _ t => t.mount = m) (fun _ _ => True) True v := by
    unfold openPos
    rw [wp_ite]
    split
    · exact wp_vop_fstat h
    · exact h
  unfold openFile setFile filemap_open
  rw [wp_bind]
  apply Wp.mono hpos _ (fun _ _ he => he) id
  intro pos t ht
  simp only [wp_bind, wp_modify, wp_get, wp_check, wp_pure]
  split
  · exact ⟨⟨i, rfl, by simp [setFile], by simp [setFile]⟩, ht⟩
  · trivial

theorem wp_file_open (h : v.mount = m) :
    Wp (file_open a path open_flags)
      (fun fd t => ∃ node, OpenOn t fd node ∧ Cuts a open_flags m node t)
      (fun _ _ => True) True v := by
  unfold file_open filemap_alloc
  split
  · trivial
  · simp only [wp_bind, wp_get]
    split
    · trivial
    · rename_i readable writable hmode _ i hi
      simp only [wp_bind, wp_check]
      split
      · simp only [setFile, wp_modify, wp_pure, wp_attempt]
        refine Wp.mono (wp_vfs_open_cuts (m := m) ?_) ?_ ?_ id
        · exact h
        · intro node t ht
          apply Wp.mono (wp_openFile rfl i readable writable) _ (fun _ _ he => he) id
          rintro fd u ⟨hon, hu⟩
          refine ⟨node, hon, ?_⟩
          unfold Cuts at ht ⊢
          rwa [hu]
        · intro ret t _
          unfold filemap_free setFile
          simp only [wp_bind, wp_get, wp_check]
          split
          · trivial
          · trivial
      · trivial

/-- A file that is cut to nothing has no bytes, and an empty file is not touched. -/
theorem cut_size {c c' : Call} {env : Around} (h : sfs_truncfile env 0 c = .ok () c') :
    c'.sin.din.size = 0 ∧ (c.sin.din.size = 0 → c' = c) := by
  have hw : Wp (sfs_truncfile env 0)
      (fun _ t => t.sin.din.size = 0 ∧ (c.sin.din.size = 0 → t = c)) (fun _ _ => True) True c := by
    unfold sfs_truncfile
    rw [wp_ite]
    split
    · trivial
    · simp only [wp_bind, wp_get, wp_ite]
      split
      · rename_i h0
        rw [wp_check]
        split
        · exact ⟨h0, fun _ => rfl⟩
        · trivial
      · rename_i h0
        apply Wp.mono (wp_trivial _) _ (fun _ _ _ => trivial) id
        intro _ t _
        rw [wp_check]
        split
        · exact ⟨rfl, fun hz => absurd hz h0⟩
        · trivial
  exact (wp_of_ok h).1 hw

/-- A successful open without `O_TRUNC` leaves the data of the file as it was just where `O_CREAT`
is not set, or where there is no data. -/
theorem sysfile_open_keeps_data {copied : Except Int (List Byte)}
    (hrun : sysfile_open a copied open_flags v = .ok fd t)
    (htrunc : flag open_flags O_TRUNC = false) :
    ∃ node, OpenOn t fd node ∧ ∀ fs ino, node = .sfs fs ino →
      (contents (t.call fs ino) = contents (v.call fs ino) ↔
        flag open_flags O_CREAT = false ∨ (v.call fs ino).sin.din.size = 0) := by
  unfold sysfile_open at hrun
  cases copied with
  | error ret => cases hrun
  | ok path =>
    obtain ⟨node, hon, hcuts⟩ := (wp_of_ok hrun).1 (wp_file_open rfl)
    refine ⟨node, hon, ?_⟩
    rintro fs ino rfl
    unfold Cuts at hcuts
    cases hc : flag open_flags O_CREAT with
    | false =>
      rw [htrunc, hc, if_neg (by simp)] at hcuts
      refine iff_of_true ?_ (Or.inl rfl)
      unfold Vfs.call
      rw [hcuts]
    | true =>
      rw [htrunc, hc, if_pos (Or.inr rfl)] at hcuts
      obtain ⟨u, w, hu, ⟨fs', ino', c, hnode, -, hcut, rfl⟩, ht⟩ := hcuts
      cases hnode
      have hcall : u.call fs ino = v.call fs ino := by
        unfold Vfs.call
        rw [hu]
      have hcall' : t.call fs ino = c := by
        unfold Vfs.call
        rw [ht]
        simp [Vfs.setCall]
      obtain ⟨hsize, hsame⟩ := cut_size hcut
      rw [hcall] at hsame
      rw [hcall']
      constructor
      · intro he
        right
        have hlen := congrArg List.length he
        unfold contents at hlen
        rw [List.length_map, List.length_map, List.length_range, List.length_range, hsize] at hlen
        exact hlen.symm
      · rintro (hn | h0)
        · cases hn
        · rw [hsame h0]

end

/-- The directory of `dotAndA` as the root, with a byte in the file `a`. -/
def oneByteFile : Vfs where
  mem node := if node = .sfs 0 1 then some ⟨1, 0⟩ else none
  mount _ :=
    { sfs := { dotAndA.sfs with
        super := ⟨8, 0⟩
        freemap := ⟨32, 1, fun _ => 0#32⟩
        disk := fun b => if b = 7 then patch Buffer.zero 0 [65] else dotAndA.sfs.disk b }
      sin := fun ino =>
        if ino = 3 then ⟨⟨1, SFS_TYPE_FILE, 1, 1, fun i => if i = 0 then 7 else 0, 0⟩, 3, false⟩
        else dotAndA.sin }
  vdev_list := []
  bootfs_node := none
  pwd := some (.sfs 0 1)
  filemap i := ⟨.FD_NONE, false, false, i.val, 0#32, none, 0⟩

/-- The file `a` is opened as the first file, and it is empty then. -/
theorem open_a : ∃ fd t,
    sysfile_open .fine (.ok [97]) (filetable.O_RDWR ||| O_CREAT) oneByteFile = .ok fd t ∧
      ((t.filemap 0).fd = fd ∧ (t.filemap 0).status = .FD_OPENED ∧
        (t.filemap 0).node = some (.sfs 0 3)) ∧ (t.call 0 3).sin.din.size = 0 := by
  apply Outcome.Returns.ok
  decide +kernel

theorem sysfile_open_keeps_data_a : ∃ fd t node,
    sysfile_open .fine (.ok [97]) (filetable.O_RDWR ||| O_CREAT) oneByteFile = .ok fd t ∧
      OpenOn t fd node ∧ ∀ fs ino, node = .sfs fs ino →
        (contents (t.call fs ino) = contents (oneByteFile.call fs ino) ↔
          flag (filetable.O_RDWR ||| O_CREAT) O_CREAT = false ∨
            (oneByteFile.call fs ino).sin.din.size = 0) := by
  obtain ⟨fd, t, hrun, -⟩ := open_a
  obtain ⟨node, hnode⟩ := sysfile_open_keeps_data hrun (by decide)
  exact ⟨fd, t, node, hrun, hnode⟩

/-- `O_CREAT` cuts off what the file `a` holds. -/
theorem create_cuts_off :
    ¬ ∀ (a : Answers) (copied : Except Int (List Byte)) (open_flags : Flags) (v t : Vfs) (fd : Int)
      (fs : Fs) (ino : Nat), sysfile_open a copied open_flags v = .ok fd t →
        flag open_flags O_TRUNC = false → OpenOn t fd (.sfs fs ino) →
        contents (t.call fs ino) = contents (v.call fs ino) := by
  intro h
  obtain ⟨fd, t, hrun, hon, hsize⟩ := open_a
  have hsame := h _ _ _ _ _ _ 0 3 hrun (by decide) ⟨0, hon⟩
  have hlen := congrArg List.length hsame
  unfold contents at hlen
  rw [List.length_map, List.length_map, List.length_range, List.length_range, hsize] at hlen
  exact absurd hlen (by decide)

end nehcpu.kernel.vfs
