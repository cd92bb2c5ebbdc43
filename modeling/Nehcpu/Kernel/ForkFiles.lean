-- The table of files of a child that is given up: after `copy_fs` and `put_fs` the tables are as
-- before, and every count of an inode with them.
import Nehcpu.Kernel.FileTableOk
import Nehcpu.Kernel.Fork

namespace nehcpu.kernel.filetable

open Function nehcpu.fallible nehcpu.refcount
open nehcpu.calls hiding goOn
open cpu hiding Except

/-- What the other processes see of the tables, and the counts of the inodes. -/
structure SameFiles (s s' : Sys) : Prop where
  tabs : s'.tabs = s.tabs
  table : ∀ t ∈ s.tabs, s'.table t = s.table t
  procs : s'.procs = s.procs
  fs_struct : ∀ pid ∈ s.procs, s'.fs_struct pid = s.fs_struct pid
  ref_count : s'.ref_count = s.ref_count
  open_count : s'.open_count = s.open_count
  others : s'.others = s.others
  vop_closes : s'.vop_closes = s.vop_closes
  calls : s'.calls = s.calls

/-! ## The counts follow the tables -/

section

variable {s x x' : Sys} {t : Tab} {i : Fd} {pid child : Pid} {node : Node} {c c' : Call}

/-- With one table more no inode is less open. -/
theorem Ok.open_le (h : Ok s) (hx : Ok x) (htabs : x.tabs = insert t s.tabs)
    (htable : ∀ u ∈ s.tabs, x.table u = s.table u) (hcalls : x.calls = c :: s.calls)
    (node : Node) : s.open_count node ≤ x.open_count node := by
  have hnamed : s.named node ≤ x.named node := by
    have hcongr : s.named node =
        refs (s.tabs ×ˢ Finset.univ) (fun k => (x.slot k.1 k.2).names) node := by
      refine (refs_congr ?_ node).symm
      intro k hk
      unfold Sys.slot
      rw [htable k.1 (Finset.mem_product.1 hk).1]
    rw [hcongr]
    unfold Sys.named refs
    rw [htabs]
    apply Finset.card_le_card
    apply Finset.filter_subset_filter
    exact Finset.product_subset_product_left (Finset.subset_insert t s.tabs)
  have hopening : s.opening node ≤ x.opening node := by
    unfold Sys.opening holding
    rw [hcalls, List.countP_cons]
    exact Nat.le_add_right _ _
  have h1 := h.open_count node
  have h2 := hx.open_count node
  omega

/-- The same tables and the same calls make the same counts. -/
theorem SameFiles.of_tables (h : Ok s) (hx : Ok x) (htabs : x.tabs = s.tabs)
    (htable : ∀ t ∈ s.tabs, x.table t = s.table t) (hprocs : x.procs = s.procs)
    (hfs : ∀ pid ∈ s.procs, x.fs_struct pid = s.fs_struct pid) (hothers : x.others = s.others)
    (hcloses : x.vop_closes = s.vop_closes) (hcalls : x.calls = s.calls) : SameFiles s x := by
  have hnamed : ∀ node, x.named node = s.named node := by
    intro node
    unfold Sys.named
    rw [htabs]
    refine refs_congr ?_ node
    intro k hk
    unfold Sys.slot
    rw [htable k.1 (Finset.mem_product.1 hk).1]
  have hpwd : ∀ node, refs x.tabs x.pwd node = refs s.tabs s.pwd node := by
    intro node
    rw [htabs]
    refine refs_congr ?_ node
    intro u hu
    unfold Sys.pwd
    rw [hcalls, htable u hu]
  refine ⟨htabs, htable, hprocs, hfs, ?_, ?_, hothers, hcloses, hcalls⟩
  · funext node
    have h1 := h.ref_count node
    have h2 := hx.ref_count node
    rw [hnamed, hpwd, hcalls, hothers] at h2
    omega
  · funext node
    have h1 := h.open_count node
    have h2 := hx.open_count node
    unfold Sys.opening at h1 h2
    rw [hnamed, hcalls] at h2
    omega

/-! ## One turn of `fs_destroy` -/

theorem destroyStep_free (ht : t ∈ x.tabs) (hst : (x.slot t i).status = .FD_NONE)
    (owner : Option Pid) :
    destroyStep x t i owner = .ok { x with calls := .destroy t (i + 1) owner :: x.calls } := by
  unfold destroyStep
  rw [dif_pos i.isLt, file_ok ht]
  show (if (x.slot t i).status = .FD_OPENED then _ else goNext x t i (.destroy owner)) = _
  rw [if_neg (by simp [hst])]
  unfold goNext
  simp only [file_ok ht]
  show (if (x.slot t i).status ≠ .FD_NONE then _ else _) = _
  rw [if_neg (not_not.2 hst)]
  rfl

theorem destroyStep_opened (ht : t ∈ x.tabs) (hst : (x.slot t i).status = .FD_OPENED)
    (h1 : (x.slot t i).open_count = 1) (hn : (x.slot t i).node = some node)
    (hpos : 0 < x.open_count node) (owner : Option Pid) :
    destroyStep x t i owner = .ok ({ x with
      open_count := update x.open_count node (x.open_count node - 1)
      vop_closes := update x.vop_closes node
        (x.vop_closes node + if x.open_count node = 1 then 1 else 0)
      calls := .closing t i node (.destroy owner) :: x.calls }.setFile t i
        { x.slot t i with status := .FD_CLOSED, open_count := 0 }) := by
  unfold destroyStep
  rw [dif_pos i.isLt, file_ok ht]
  show (if (x.slot t i).status = .FD_OPENED then _ else _) = _
  rw [if_pos hst]
  unfold filemap_close
  show (x.file t i >>= _) = _
  rw [file_ok ht]
  show (if (x.slot t i).status ≠ .FD_OPENED ∨ (x.slot t i).open_count = 0 then _ else _) = _
  rw [if_neg (by simp [hst, h1]), h1]
  obtain ⟨f, hf⟩ : ∃ f, f = { x.slot t i with status := .FD_CLOSED, open_count := 0 } := ⟨_, rfl⟩
  have hclosed : f.status = .FD_CLOSED := by rw [hf]
  have h0 : f.open_count = 0 := by rw [hf]
  have hnode : f.node = some node := by rw [hf, ← hn]
  rw [← hf]
  show filemap_free (x.setFile t i f) t i (.destroy owner) = _
  unfold filemap_free
  rw [setFile_file _ ht]
  show (if ¬ (f.status = .FD_INIT ∨ f.status = .FD_CLOSED) ∨ f.open_count ≠ 0 then _ else
    if f.status = .FD_CLOSED then _ else _) = _
  rw [if_neg (by simp [hclosed, h0]), if_pos hclosed]
  simp only [hnode]
  have hdec := inode_open_dec_ok (s := x.setFile t i f) node hpos
  show (inode_open_dec (x.setFile t i f) node >>= _) = _
  rw [hdec]
  rfl

theorem closingDone_ok (hpos : 0 < x.ref_count node) (next : Next) :
    closingDone x t i node next = .ok { x with
      ref_count := update x.ref_count node (x.ref_count node - 1)
      calls := .closed t i next :: x.calls } := by
  unfold closingDone
  rw [inode_ref_dec_ok node hpos]
  rfl

theorem closedDone_destroy (ht : t ∈ x.tabs) (owner : Option Pid) :
    closedDone x t i (.destroy owner) =
      .ok ({ x with calls := .destroy t (i + 1) owner :: x.calls }.setFile t i
        { x.slot t i with status := .FD_NONE }) := by
  unfold closedDone
  rw [file_ok ht]
  show goNext (x.setFile t i { x.slot t i with status := .FD_NONE }) t i (.destroy owner) = _
  unfold goNext
  simp only [setFile_file _ ht]
  rfl

end

/-! ## All turns -/

/-- The calls of `fs_destroy` in the name of a process. -/
inductive Sweeps (t : Tab) (pid : Pid) : Call → Prop
  | destroy (i : Nat) : Sweeps t pid (.destroy t i (some pid))
  | closing (i : Fd) (node : Node) : Sweeps t pid (.closing t i node (.destroy (some pid)))
  | closed (i : Fd) : Sweeps t pid (.closed t i (.destroy (some pid)))

/-- The turns that are left at most. -/
def Call.turns : Call → Nat
  | .destroy _ i _ => 3 * (FS_STRUCT_NENTRY - i) + 1
  | .closing _ i _ _ => 3 * (FS_STRUCT_NENTRY - i)
  | .closed _ i _ => 3 * (FS_STRUCT_NENTRY - i) - 1
  | _ => 0

/-- The table `t` is given up, and all else is as in `s`. -/
structure Sweeping (s : Sys) (t : Tab) (c : Call) (x : Sys) : Prop where
  ok : Ok x
  calls : x.calls = c :: s.calls
  tabs : x.tabs = insert t s.tabs
  table : ∀ u ∈ s.tabs, x.table u = s.table u
  procs : x.procs = s.procs
  fs_struct : ∀ pid ∈ s.procs, x.fs_struct pid = s.fs_struct pid
  others : x.others = s.others
  vop_closes : x.vop_closes = s.vop_closes
  opens : ∀ node, 0 < x.open_count node → 0 < s.open_count node

section

variable {s x x' : Sys} {t : Tab} {pid : Pid} {c c' : Call}

/-- A turn closes no inode: the files of the parent keep it open. -/
theorem Sweeping.turn (h : Ok s) (ht : t ∉ s.tabs) (w : Sweeping s t c x) (hf : Fine x x')
    (hcalls : x'.calls = c' :: s.calls) (htabs : x'.tabs = x.tabs)
    (htable : ∀ u, u ≠ t → x'.table u = x.table u) (hprocs : x'.procs = x.procs)
    (hfs : x'.fs_struct = x.fs_struct) (hothers : x'.others = x.others)
    (hopen : ∀ node, x'.open_count node ≤ x.open_count node) : Sweeping s t c' x' := by
  have htab : ∀ u ∈ s.tabs, x'.table u = s.table u := by
    intro u hu
    rw [htable u fun he => ht (he ▸ hu), w.table u hu]
  have hle := h.open_le hf.1 (htabs.trans w.tabs) htab hcalls
  refine ⟨hf.1, hcalls, htabs.trans w.tabs, htab, hprocs.trans w.procs, ?_,
    hothers.trans w.others, ?_, ?_⟩
  · rw [hfs]
    exact w.fs_struct
  · funext node
    have hnone : ¬ (0 < x.open_count node ∧ x'.open_count node = 0) := by
      rintro ⟨hpos, h0⟩
      have h1 := w.opens node hpos
      have h2 := hle node
      omega
    rw [hf.2 node, if_neg hnone, w.vop_closes, Nat.add_zero]
  · intro node hpos
    exact w.opens node (lt_of_lt_of_le hpos (hopen node))

/-- The call of the process is the first one. -/
theorem Sweeping.first (w : Sweeping s t c x) (hc : pid ∈ c.pids) :
    x.calls.find? (fun c => pid ∈ c.pids) = some c := by
  rw [w.calls]
  exact List.find?_cons_of_pos (by simpa using hc)

theorem Sweeping.drop (w : Sweeping s t c x) : (x.drop c).calls = s.calls := by
  show calls.goOn x.calls c [] = s.calls
  unfold calls.goOn
  rw [w.calls, List.erase_cons_head]
  rfl

/-- One turn: the table has a file less to go, or it has gone. -/
theorem Sweeping.resume (h : Ok s) (ht : t ∉ s.tabs) (w : Sweeping s t c x) (hc : Sweeps t pid c) :
    ∃ x', resume x pid = .ok x' ∧
      (SameFiles s x' ∨ ∃ c', Sweeps t pid c' ∧ Sweeping s t c' x' ∧ c'.turns < c.turns) := by
  have hmem : c ∈ x.calls := by
    rw [w.calls]
    exact List.mem_cons_self
  have htx : t ∈ x.tabs := by
    rw [w.tabs]
    exact Finset.mem_insert_self t s.tabs
  unfold filetable.resume
  cases hc with
  | destroy i =>
    rw [w.first (by simp [Call.pids])]
    simp only
    have hfine := w.ok.destroyStep hmem
    by_cases hi : i < FS_STRUCT_NENTRY
    · have hdrop : ∀ f : Fd, (x.drop (.destroy t i (some pid))).slot t f = x.slot t f :=
        fun _ => rfl
      rcases w.ok.destroying hmem ⟨i, hi⟩ with hst | ⟨hst, h1⟩
      · -- no file there
        have he := destroyStep_free (x := x.drop (.destroy t i (some pid))) (i := ⟨i, hi⟩) htx hst
          (some pid)
        refine ⟨_, he, Or.inr ⟨_, .destroy (i + 1), ?_, ?_⟩⟩
        · refine w.turn h ht (hfine.ok he) ?_ rfl (fun _ _ => rfl) rfl rfl rfl fun _ => le_rfl
          rw [← w.drop]
        · show 3 * (FS_STRUCT_NENTRY - (i + 1)) + 1 < 3 * (FS_STRUCT_NENTRY - i) + 1
          omega
      · obtain ⟨node, hn, -, hpos, -⟩ := w.ok.named_of_pos htx (i := ⟨i, hi⟩) (by omega)
        have he := destroyStep_opened (x := x.drop (.destroy t i (some pid))) (i := ⟨i, hi⟩) htx hst
          h1 hn hpos (some pid)
        refine ⟨_, he, Or.inr ⟨_, .closing ⟨i, hi⟩ node, ?_, ?_⟩⟩
        · refine w.turn h ht (hfine.ok he) ?_ rfl (fun u hu => update_of_ne hu _ _) rfl rfl rfl ?_
          · rw [← w.drop]
            rfl
          · intro n
            show update x.open_count node (x.open_count node - 1) n ≤ x.open_count n
            rw [update_apply]
            split
            · next he =>
              rw [he]
              exact Nat.sub_le _ _
            · exact le_rfl
        · show 3 * (FS_STRUCT_NENTRY - i) < 3 * (FS_STRUCT_NENTRY - i) + 1
          omega
    · -- the table goes
      have he : destroyStep (x.drop (.destroy t i (some pid))) t i (some pid) =
          .ok (putDone { x.drop (.destroy t i (some pid)) with tabs := x.tabs.erase t }
            (some pid)) := by
        unfold filetable.destroyStep
        rw [dif_neg hi]
        rfl
      refine ⟨_, he, Or.inl ?_⟩
      apply SameFiles.of_tables h (hfine.ok he).1
      · show x.tabs.erase t = s.tabs
        rw [w.tabs, Finset.erase_insert ht]
      · exact w.table
      · exact w.procs
      · exact w.fs_struct
      · exact w.others
      · exact w.vop_closes
      · exact w.drop
  | closing i node =>
    rw [w.first (by simp [Call.pids, Next.pids])]
    simp only
    have hfine := w.ok.closingDone hmem
    have hpos : 0 < x.ref_count node := by
      have h1 := w.ok.ref_count node
      have h2 : 0 < holding Call.held x.calls node := holding_pos.2 ⟨_, hmem, rfl⟩
      omega
    have he := closingDone_ok (x := x.drop (.closing t i node (.destroy (some pid)))) (t := t)
      (i := i) hpos (.destroy (some pid))
    refine ⟨_, he, Or.inr ⟨_, .closed i, ?_, ?_⟩⟩
    · refine w.turn h ht (hfine.ok he) ?_ rfl (fun _ _ => rfl) rfl rfl rfl fun _ => le_rfl
      rw [← w.drop]
    · show 3 * (FS_STRUCT_NENTRY - (i : Nat)) - 1 < 3 * (FS_STRUCT_NENTRY - (i : Nat))
      have := i.isLt
      omega
  | closed i =>
    rw [w.first (by simp [Call.pids, Next.pids])]
    simp only
    have hfine := w.ok.closedDone hmem
    have he := closedDone_destroy (x := x.drop (.closed t i (.destroy (some pid)))) (i := i) htx
      (some pid)
    refine ⟨_, he, Or.inr ⟨_, .destroy (i + 1), ?_, ?_⟩⟩
    · refine w.turn h ht (hfine.ok he) ?_ rfl (fun u hu => update_of_ne hu _ _) rfl rfl rfl
        fun _ => le_rfl
      rw [← w.drop]
      rfl
    · show 3 * (FS_STRUCT_NENTRY - ((i : Nat) + 1)) + 1 < 3 * (FS_STRUCT_NENTRY - (i : Nat)) - 1
      have := i.isLt
      omega

/-- A process that is in no call goes on with nothing. -/
theorem finish_idle (hx : ∀ c ∈ x.calls, pid ∉ c.pids) (turns : Nat) :
    finish pid turns x = .ok x := by
  have hnone : x.calls.find? (fun c => pid ∈ c.pids) = none := by
    rw [List.find?_eq_none]
    intro c hc
    simpa using hx c hc
  have hres : resume x pid = .ok x := by
    unfold filetable.resume
    rw [hnone]
  induction turns with
  | zero => rfl
  | succ turns ih =>
    show resume x pid >>= finish pid turns = .ok x
    rw [hres]
    exact ih

/-- The turns of `fs_destroy` come to their end. -/
theorem Sweeping.ends (h : Ok s) (ht : t ∉ s.tabs) (hr : s.runs pid) :
    ∀ (turns : Nat) (c : Call) (x : Sys), Sweeping s t c x → Sweeps t pid c → c.turns ≤ turns →
      ∃ x', finish pid turns x = .ok x' ∧ SameFiles s x' := by
  intro turns
  induction turns with
  | zero =>
    intro c x _ hc hle
    have hpos : 0 < c.turns := by
      cases hc with
      | destroy i => exact Nat.succ_pos _
      | closing i node =>
        have := i.isLt
        show 0 < 3 * (FS_STRUCT_NENTRY - (i : Nat))
        omega
      | closed i =>
        have := i.isLt
        show 0 < 3 * (FS_STRUCT_NENTRY - (i : Nat)) - 1
        omega
    omega
  | succ turns ih =>
    intro c x w hc hle
    obtain ⟨x', he, hx'⟩ := w.resume h ht hc
    have hstep : finish pid (turns + 1) x = finish pid turns x' := by
      show filetable.resume x pid >>= finish pid turns = _
      rw [he]
      rfl
    rw [hstep]
    rcases hx' with hsame | ⟨c', hc', w', hlt⟩
    · refine ⟨x', finish_idle ?_ turns, hsame⟩
      rw [hsame.calls]
      exact hr.2
    · exact ih c' x' w' hc' (by omega)

end

/-! ## The copy of a table -/

/-- Files came to the table `t`, with inodes that were open already. -/
structure Dups (t : Tab) (s s' : Sys) : Prop where
  tabs : s'.tabs = s.tabs
  table : ∀ u, u ≠ t → s'.table u = s.table u
  fs_count : (s'.table t).fs_count = (s.table t).fs_count
  procs : s'.procs = s.procs
  fs_struct : s'.fs_struct = s.fs_struct
  calls : s'.calls = s.calls
  others : s'.others = s.others
  vop_closes : s'.vop_closes = s.vop_closes
  opens : ∀ node, 0 < s'.open_count node → 0 < s.open_count node

theorem Dups.refl (t : Tab) (s : Sys) : Dups t s s :=
  ⟨rfl, fun _ _ => rfl, rfl, rfl, rfl, rfl, rfl, rfl, fun _ => id⟩

section

variable {s s' : Sys} {t u : Tab} {pid child : Pid}

theorem Dups.trans {s'' : Sys} (h : Dups t s s') (h' : Dups t s' s'') : Dups t s s'' where
  tabs := h'.tabs.trans h.tabs
  table u hu := (h'.table u hu).trans (h.table u hu)
  fs_count := h'.fs_count.trans h.fs_count
  procs := h'.procs.trans h.procs
  fs_struct := h'.fs_struct.trans h.fs_struct
  calls := h'.calls.trans h.calls
  others := h'.others.trans h.others
  vop_closes := h'.vop_closes.trans h.vop_closes
  opens node hpos := h.opens node (h'.opens node hpos)

theorem Ok.dupLoop_dups (is : List Fd) (h : Ok s) (ht : t ∈ s.tabs) (hu : u ∈ s.tabs)
    (hd : holding Call.dying s.calls t = 0) (hnd : is.Nodup)
    (hst : ∀ i ∈ is, (s.slot t i).status = .FD_NONE) :
    ∃ s', filetable.dupLoop t u is s = .ok s' ∧ Ok s' ∧ Dups t s s' := by
  induction is generalizing s with
  | nil => exact ⟨s, rfl, h, Dups.refl t s⟩
  | cons i is ih =>
    obtain ⟨hi, hnd⟩ := List.nodup_cons.1 hnd
    have hsi := hst i List.mem_cons_self
    rw [dupLoop_cons is ht hu]
    by_cases hsu : (s.slot u i).status = .FD_OPENED
    · obtain ⟨node, g, ⟨-, -, hpos⟩, hdup, hok⟩ := h.filemap_dup ht hu hd hsi hsu
        (f := { s.slot t i with status := .FD_INIT }) rfl rfl
        ((h.slots t ht i).unused (Or.inl hsi))
      rw [if_pos hsu, hdup]
      obtain ⟨s1, hs1⟩ : ∃ s1, s1 = (inode_open_inc (inode_ref_inc s node) node).setFile t i g :=
        ⟨_, rfl⟩
      rw [← hs1] at hok ⊢
      have hdups : Dups t s s1 := by
        rw [hs1]
        refine ⟨rfl, fun v hv => update_of_ne hv _ _, ?_, rfl, rfl, rfl, rfl, rfl, ?_⟩
        · show (update s.table t _ t).fs_count = _
          rw [update_self]
          rfl
        · intro n hn
          have hn' : 0 < update s.open_count node (s.open_count node + 1) n := hn
          rw [update_apply] at hn'
          split at hn'
          · next he =>
            rw [he]
            exact hpos
          · exact hn'
      have hst1 : ∀ j ∈ is, (s1.slot t j).status = .FD_NONE := by
        intro j hj
        have hne : (t, j) ≠ (t, i) := fun he => hi ((Prod.mk.inj he).2 ▸ hj)
        rw [hs1, setFile_slot_ne _ g hne]
        exact hst j (List.mem_cons_of_mem i hj)
      obtain ⟨s', hs', hok', hrest⟩ := ih hok (by rw [hdups.tabs]; exact ht)
        (by rw [hdups.tabs]; exact hu) (by rw [hdups.calls]; exact hd) hnd hst1
      exact ⟨s', hs', hok', hdups.trans hrest⟩
    · rw [if_neg hsu]
      exact ih h ht hu hd hnd fun j hj => hst j (List.mem_cons_of_mem i hj)

/-- What the child of a fork has behind `copy_fs`: a table of its own or that of its parent. -/
structure Forked (s : Sys) (pid child : Pid) (t : Tab) (s1 : Sys) : Prop where
  ok : Ok s1
  calls : s1.calls = .forking pid child :: s.calls
  procs : s1.procs = insert child s.procs
  fs_struct : s1.fs_struct = update s.fs_struct child (some t)
  others : s1.others = s.others
  vop_closes : s1.vop_closes = s.vop_closes

theorem goodFs_eq (ht : t ∈ s.tabs) :
    goodFs s pid child t = .ok { s with
      table := update s.table t { s.table t with fs_count := (s.table t).fs_count + 1 }
      procs := insert child s.procs
      fs_struct := update s.fs_struct child (some t)
      calls := .forking pid child :: s.calls } := by
  unfold goodFs
  rw [fs_ok ht]
  rfl

theorem copy_fs_shared (h : Ok s) (hr : s.runs pid) (hchild : child ∉ s.procs) (place : Option Tab)
    (hu : s.fs_struct pid = some u) :
    ∃ s1, copy_fs s pid child true place = .ok s1 ∧ Forked s pid child u s1 ∧ s1.tabs = s.tabs ∧
      s1.table = update s.table u { s.table u with fs_count := (s.table u).fs_count + 1 } ∧
      s1.ref_count = s.ref_count ∧ s1.open_count = s.open_count := by
  obtain ⟨hut, hcount⟩ := h.of_proc hr.1 hu
  have he : copy_fs s pid child true place = goodFs s pid child u := by
    unfold filetable.copy_fs
    rw [hu]
    rfl
  obtain ⟨s1, hs1, hok, -⟩ := h.goodFs hr hchild hut (h.not_dying hcount)
  rw [he]
  rw [goodFs_eq hut] at hs1 ⊢
  obtain rfl := Except.ok.inj hs1
  exact ⟨_, rfl, ⟨hok, rfl, rfl, rfl, rfl, rfl⟩, rfl, rfl, rfl, rfl⟩

theorem copy_fs_own (h : Ok s) (hr : s.runs pid) (hchild : child ∉ s.procs) (ht : t ∉ s.tabs) :
    ∃ s1, copy_fs s pid child false (some t) = .ok s1 ∧ Forked s pid child t s1 ∧
      s1.tabs = insert t s.tabs ∧ (∀ v ∈ s.tabs, s1.table v = s.table v) ∧
      (s1.table t).fs_count = 1 ∧ ∀ node, 0 < s1.open_count node → 0 < s.open_count node := by
  obtain ⟨u, hu, hpu⟩ := h.procs pid hr.1
  have hucount := (h.of_proc hr.1 hpu).2
  have hnew := h.newTable ht (s.table u).pwd (r := withPwd s.ref_count (s.table u).pwd) fun node => by
    cases (s.table u).pwd with
    | none => rfl
    | some dir => exact update_add_holds s.ref_count dir node
  obtain ⟨s0, hs0⟩ : ∃ s0 : Sys, s0 = { s with
      tabs := insert t s.tabs
      table := update s.table t { fs_create with pwd := (s.table u).pwd }
      ref_count := withPwd s.ref_count (s.table u).pwd } := ⟨_, rfl⟩
  rw [← hs0] at hnew
  have htab0 : s0.tabs = insert t s.tabs := by rw [hs0]
  have hself : s0.table t = { fs_create with pwd := (s.table u).pwd } := by
    rw [hs0]
    exact update_self _ _ _
  obtain ⟨s1, hs1, hok1, hdups⟩ := hnew.dupLoop_dups (t := t) (u := u)
    (List.finRange FS_STRUCT_NENTRY) (by rw [htab0]; exact Finset.mem_insert_self t s.tabs)
    (by rw [htab0]; exact Finset.mem_insert_of_mem hu) (by rw [hs0]; exact h.no_dying ht)
    (List.nodup_finRange _) (by
      intro i _
      unfold Sys.slot
      rw [hself]
      rfl)
  have hdup : dup_fs ({ s with tabs := insert t s.tabs }.setTable t fs_create) t u = .ok s1 := by
    rw [hs0] at hs1
    exact (dup_fs_new s ht hu hucount).trans hs1
  have ht1 : t ∈ s1.tabs := by
    rw [hdups.tabs, htab0]
    exact Finset.mem_insert_self t s.tabs
  have he : copy_fs s pid child false (some t) = goodFs s1 pid child t := by
    unfold filetable.copy_fs
    rw [hpu]
    show (dup_fs ({ s with tabs := insert t s.tabs }.setTable t fs_create) t u >>= _) = _
    rw [hdup]
    rfl
  have hplace : ∀ v ∈ some t, v ∉ s.tabs := by
    intro v hv
    rw [← Option.some_inj.1 hv]
    exact ht
  have hfine := h.copy_fs hr hchild false hplace
  rw [he, goodFs_eq ht1] at hfine
  rw [he, goodFs_eq ht1]
  have hcalls : s1.calls = s.calls := hdups.calls.trans (by rw [hs0])
  have hprocs : s1.procs = s.procs := hdups.procs.trans (by rw [hs0])
  have hfs : s1.fs_struct = s.fs_struct := hdups.fs_struct.trans (by rw [hs0])
  refine ⟨_, rfl, ⟨hfine.1, ?_, ?_, ?_, ?_, ?_⟩, ?_, ?_, ?_, ?_⟩
  · show .forking pid child :: s1.calls = _
    rw [hcalls]
  · show insert child s1.procs = _
    rw [hprocs]
  · show update s1.fs_struct child (some t) = _
    rw [hfs]
  · exact hdups.others.trans (by rw [hs0])
  · exact hdups.vop_closes.trans (by rw [hs0])
  · exact hdups.tabs.trans htab0
  · intro v hv
    have hne : v ≠ t := fun he => ht (he ▸ hv)
    refine (update_of_ne hne _ _).trans ((hdups.table v hne).trans ?_)
    rw [hs0]
    exact update_of_ne hne _ _
  · show (update s1.table t
      { s1.table t with fs_count := (s1.table t).fs_count + 1 } t).fs_count = 1
    rw [update_self]
    show (s1.table t).fs_count + 1 = 1
    rw [hdups.fs_count, hself]
    rfl
  · intro node hpos
    have h1 := hdups.opens node hpos
    rw [hs0] at h1
    exact h1

end

/-! ## A fork that is given up -/

/-- `put_fs` of the child, to its end. -/
def giveUp (pid child : Pid) (turns : Nat) (s1 : Sys) : Except Failed Sys :=
  (Event.forkDone pid child false).step s1 >>= finish pid turns

section

variable {s s1 : Sys} {t u : Tab} {pid child : Pid}

theorem Forked.drop (f : Forked s pid child t s1) :
    (s1.drop (.forking pid child)).calls = s.calls := by
  show calls.goOn s1.calls (.forking pid child) [] = s.calls
  unfold calls.goOn
  rw [f.calls, List.erase_cons_head]
  rfl

/-- `put_fs` up to the count of the table. -/
theorem Forked.put_fs (f : Forked s pid child t s1) (ht : t ∈ s1.tabs) :
    (Event.forkDone pid child false).step s1 =
      let x := (s1.drop (.forking pid child)).parted child t
      if (s1.table t).fs_count - 1 = 0 then fs_destroy x t (some pid)
      else .ok (putDone x (some pid)) := by
  show filetable.put_fs (s1.drop (.forking pid child)) child (some pid) = _
  have hfs : (s1.drop (.forking pid child)).fs_struct child = some t := by
    show s1.fs_struct child = some t
    rw [f.fs_struct, update_self]
  unfold filetable.put_fs
  rw [hfs]
  show ((s1.drop (.forking pid child)).fs t >>= _) = _
  rw [fs_ok (show t ∈ (s1.drop (.forking pid child)).tabs from ht)]
  rfl

theorem Forked.parted (hchild : child ∉ s.procs) (f : Forked s pid child t s1) :
    let x := (s1.drop (.forking pid child)).parted child t
    x.procs = s.procs ∧ (∀ p ∈ s.procs, x.fs_struct p = s.fs_struct p) ∧ x.others = s.others ∧
      x.vop_closes = s.vop_closes ∧ x.calls = s.calls := by
  refine ⟨?_, ?_, f.others, f.vop_closes, f.drop⟩
  · show s1.procs.erase child = s.procs
    rw [f.procs, Finset.erase_insert hchild]
  · intro p hp
    show s1.fs_struct p = s.fs_struct p
    rw [f.fs_struct]
    refine update_of_ne ?_ _ _
    rintro rfl
    exact hchild hp

/-- A shared table has one process less again. -/
theorem giveUp_shared (h : Ok s) (hr : s.runs pid) (hchild : child ∉ s.procs)
    (hu : s.fs_struct pid = some u) (f : Forked s pid child u s1) (htabs : s1.tabs = s.tabs)
    (htable : s1.table = update s.table u { s.table u with fs_count := (s.table u).fs_count + 1 })
    (href : s1.ref_count = s.ref_count) (hopen : s1.open_count = s.open_count) (turns : Nat) :
    ∃ s2, giveUp pid child turns s1 = .ok s2 ∧ SameFiles s s2 := by
  obtain ⟨hut, hcount⟩ := h.of_proc hr.1 hu
  have hself : s1.table u = { s.table u with fs_count := (s.table u).fs_count + 1 } := by
    rw [htable, update_self]
  obtain ⟨hprocs, hfs, hothers, hcloses, hcalls⟩ := f.parted hchild
  have hne : ¬ (s1.table u).fs_count - 1 = 0 := by
    rw [hself]
    exact hcount
  have hstep := f.put_fs (by rw [htabs]; exact hut)
  rw [if_neg hne] at hstep
  have hsame : SameFiles s
      (putDone ((s1.drop (.forking pid child)).parted child u) (some pid)) := by
    refine ⟨htabs, ?_, hprocs, hfs, href, hopen, hothers, hcloses, hcalls⟩
    intro v hv
    show update s1.table u { s1.table u with fs_count := (s1.table u).fs_count - 1 } v = s.table v
    rw [update_apply]
    split
    · next he =>
      rw [he, hself]
      rfl
    · next hv' =>
      rw [htable]
      exact update_of_ne hv' _ _
  refine ⟨_, ?_, hsame⟩
  unfold giveUp
  rw [hstep]
  refine finish_idle ?_ turns
  rw [hsame.calls]
  exact hr.2

/-- `fs_destroy` gives the directory back and comes to its loop. -/
theorem fs_destroy_eq {owner : Option Pid} (ht : t ∈ s.tabs)
    (hd : fs_destroy s t owner = .ok s1) :
    ∃ r, s1 = { s with ref_count := r, calls := .destroy t 0 owner :: s.calls } := by
  unfold fs_destroy at hd
  rw [fs_ok ht] at hd
  change (if (s.table t).fs_count ≠ 0 then _ else _) = _ at hd
  split at hd
  · cases hd
  · cases hp : (s.table t).pwd with
    | none =>
      simp only [hp] at hd
      exact ⟨s.ref_count, (Except.ok.inj hd).symm⟩
    | some node =>
      simp only [hp] at hd
      by_cases hz : s.ref_count node = 0
      · have hdec : inode_ref_dec s node = .error .inode_ref_dec := if_pos hz
        rw [hdec] at hd
        cases hd
      · rw [inode_ref_dec_ok node (Nat.pos_of_ne_zero hz)] at hd
        exact ⟨_, (Except.ok.inj hd).symm⟩

/-- A table of the child's own goes with its files. -/
theorem giveUp_own (h : Ok s) (hr : s.runs pid) (hchild : child ∉ s.procs) (ht : t ∉ s.tabs)
    (f : Forked s pid child t s1) (htabs : s1.tabs = insert t s.tabs)
    (htable : ∀ v ∈ s.tabs, s1.table v = s.table v) (hcount : (s1.table t).fs_count = 1)
    (hopens : ∀ node, 0 < s1.open_count node → 0 < s.open_count node) {turns : Nat}
    (hturns : 3 * FS_STRUCT_NENTRY + 1 ≤ turns) :
    ∃ s2, giveUp pid child turns s1 = .ok s2 ∧ SameFiles s s2 := by
  have ht1 : t ∈ s1.tabs := by
    rw [htabs]
    exact Finset.mem_insert_self t s.tabs
  obtain ⟨hprocs, hfs, hothers, hcloses, hcalls⟩ := f.parted hchild
  have hc : Call.forking pid child ∈ s1.calls := by
    rw [f.calls]
    exact List.mem_cons_self
  have hfine := f.ok.forkDone hc false
  have hstep := f.put_fs ht1
  rw [if_pos (by rw [hcount])] at hstep
  obtain ⟨x0, hx0⟩ : ∃ x0, x0 = (s1.drop (.forking pid child)).parted child t := ⟨_, rfl⟩
  rw [← hx0] at hprocs hfs hothers hcloses hcalls hstep
  rw [hstep] at hfine
  rcases hx : fs_destroy x0 t (some pid) with e | x
  · rw [hx] at hfine
    exact hfine.elim
  rw [hx] at hfine
  obtain ⟨r, hxr⟩ := fs_destroy_eq (by rw [hx0]; exact ht1) hx
  have hopen : x.open_count = s1.open_count := by
    rw [hxr, hx0]
    rfl
  have w : Sweeping s t (.destroy t 0 (some pid)) x := by
    refine ⟨hfine.1, ?_, ?_, ?_, ?_, ?_, ?_, ?_, ?_⟩
    · rw [hxr, ← hcalls]
    · rw [hxr, hx0]
      exact htabs
    · intro v hv
      have hne : v ≠ t := fun he => ht (he ▸ hv)
      rw [hxr, hx0]
      exact (update_of_ne hne _ _).trans (htable v hv)
    · rw [hxr]
      exact hprocs
    · rw [hxr]
      exact hfs
    · rw [hxr]
      exact hothers
    · rw [hxr]
      exact hcloses
    · rw [hopen]
      exact hopens
  unfold giveUp
  rw [hstep, hx]
  exact w.ends h ht hr turns _ x (.destroy 0) hturns

end

end nehcpu.kernel.filetable
