-- The inodes in memory, whatever the processes do and in whatever order they wait: each is there once,
-- each reference is to one that is there, and one goes only when it is saved and nobody can reach it.
import Nehcpu.Kernel.Reclaim

namespace nehcpu.kernel.reclaim

open Function nehcpu.fallible nehcpu.calls nehcpu.kernel.fs
open cpu hiding Except

variable {s s' : Sys} {node : Addr} {sin : sfs_inode}

/-! ## The invariant -/

/-- The inode that a call works on. -/
def Call.about : Call → Option Addr
  | .loadLock _ _ => none
  | .loadRead _ _ => none
  | .reclaimLock _ node => some node
  | .reclaimTruncate _ node => some node
  | .reclaimFsync _ node => some node
  | .fsync node => some node

/-- The reclaim that is on its way to destroy the inode. -/
def leaving (s : Sys) (sfs : Fs) (node : Addr) : Nat :=
  s.calls.count (.reclaimTruncate sfs node) + s.calls.count (.reclaimFsync sfs node)

/-- An inode in memory. Its `reclaim_count` is the number of the reclaims that are still to come to
the lock, and one more while there is a reference, from which one will come. -/
structure NodeOk (s : Sys) (node : Addr) (sin : sfs_inode) : Prop where
  refs : sin.ref_count = s.refs node + s.calls.count (.fsync node)
  reclaims : sin.reclaim_count =
    s.calls.count (.reclaimLock sin.in_fs node) + if sin.ref_count = 0 then 0 else 1
  left : leaving s sin.in_fs node ≠ 0 → sin.ref_count = 0 ∧ sin.reclaim_count = 0
  saved : sin.dirty = false → s.calls.count (.fsync node) = 0 →
    s.calls.count (.reclaimFsync sin.in_fs node) = 0 → s.disk sin.in_fs sin.ino = sin.din
  kept : sin.ref_count = 0 → sin.reclaim_count = 0 → leaving s sin.in_fs node = 0 →
    s.kept node = true

/-- What a call relies on. -/
def Call.Live (s : Sys) : Call → Prop
  | .loadLock _ _ => True
  | .loadRead sfs ino => ∀ node sin, s.mem node = some sin → sin.in_fs = sfs → sin.ino ≠ ino
  | .reclaimLock sfs node => ∃ sin, s.mem node = some sin ∧ sin.in_fs = sfs
  | .reclaimTruncate sfs node => ∃ sin, s.mem node = some sin ∧ sin.in_fs = sfs
  | .reclaimFsync sfs node => ∃ sin, s.mem node = some sin ∧ sin.in_fs = sfs
  | .fsync node => ∃ sin, s.mem node = some sin

def Obs.isCreated (node : Addr) : Obs → Bool
  | .created node' => node' = node
  | _ => false

def Obs.isDestroyed (node : Addr) : Obs → Bool
  | .destroyed node' _ _ => node' = node
  | _ => false

/-- Every inode that was made has been destroyed once, or it is in memory; and one that was destroyed
had no reference and was saved. -/
structure LogOk (s : Sys) : Prop where
  once : ∀ node, s.log.countP (Obs.isCreated node) =
    s.log.countP (Obs.isDestroyed node) + if (s.mem node).isSome then 1 else 0
  clean : ∀ node sin disk, .destroyed node sin disk ∈ s.log → sin.ref_count = 0 ∧ sin.din = disk

/-- The list of a file system has its inodes, each once. -/
def Listed (mem : Addr → Option sfs_inode) (inode_list : Fs → List Addr) : Prop :=
  ∀ sfs, (inode_list sfs).Nodup ∧
    ∀ node, node ∈ inode_list sfs ↔ ∃ sin, mem node = some sin ∧ sin.in_fs = sfs

/-- So have the hash lists. -/
def Hashed (mem : Addr → Option sfs_inode) (hash_list : Fs → Nat → List Addr) : Prop :=
  ∀ sfs h, (hash_list sfs h).Nodup ∧
    ∀ node, node ∈ hash_list sfs h ↔
      ∃ sin, mem node = some sin ∧ sin.in_fs = sfs ∧ sin_hashfn sin.ino = h

structure Ok (s : Sys) : Prop where
  nodes : ∀ node sin, s.mem node = some sin → NodeOk s node sin
  gone : ∀ node, s.mem node = none → s.refs node = 0
  calls : ∀ c ∈ s.calls, c.Live s
  sem : ∀ sfs, s.calls.countP (Call.inside sfs) = if s.fs_sem sfs then 1 else 0
  unique : ∀ node node' sin sin', s.mem node = some sin → s.mem node' = some sin' →
    sin.in_fs = sin'.in_fs → sin.ino = sin'.ino → node = node'
  listed : Listed s.mem s.inode_list
  hashed : Hashed s.mem s.hash_list
  log : LogOk s

theorem boot_ok (disk : Fs → Word → sfs_disk_inode) : Ok (boot disk) := by
  refine ⟨?_, ?_, ?_, ?_, ?_, ?_, ?_, ?_, ?_⟩
  · intro node sin h
    cases h
  · intro node _
    rfl
  · intro c hc
    cases hc
  · intro sfs
    rfl
  · intro node node' sin sin' h
    cases h
  · intro sfs
    simp [boot]
  · intro sfs h
    simp [boot]
  · intro node
    rfl
  · intro node sin disk h
    cases h

/-! ## One inode changes -/

/-- Nothing that matters to other inodes is different. -/
structure Apart (s s' : Sys) (node : Addr) (sfs : Fs) (ino : Word) : Prop where
  refs : ∀ node', node' ≠ node → s'.refs node' = s.refs node'
  kept : ∀ node', node' ≠ node → s'.kept node' = s.kept node'
  count : ∀ c node', c.about = some node' → node' ≠ node → s'.calls.count c = s.calls.count c
  disk : ∀ sfs' ino', ¬ (sfs' = sfs ∧ ino' = ino) → s'.disk sfs' ino' = s.disk sfs' ino'

theorem NodeOk.apart {sfs : Fs} {ino : Word} {node' : Addr} (h : NodeOk s node' sin)
    (ha : Apart s s' node sfs ino) (hne : node' ≠ node)
    (hd : ¬ (sin.in_fs = sfs ∧ sin.ino = ino)) : NodeOk s' node' sin := by
  have hc (c : Call) (hca : c.about = some node') : s'.calls.count c = s.calls.count c :=
    ha.count c node' hca hne
  have hl : leaving s' sin.in_fs node' = leaving s sin.in_fs node' := by
    unfold leaving
    rw [hc _ rfl, hc _ rfl]
  refine ⟨?_, ?_, ?_, ?_, ?_⟩
  · rw [ha.refs _ hne, hc _ rfl]
    exact h.refs
  · rw [hc _ rfl]
    exact h.reclaims
  · rw [hl]
    exact h.left
  · rw [hc _ rfl, hc _ rfl, ha.disk _ _ hd]
    exact h.saved
  · rw [hl, ha.kept _ hne]
    exact h.kept

/-- The same inodes are in memory, in the same places. -/
def SamePlaces (s s' : Sys) : Prop :=
  ∀ node, (s'.mem node).map (fun sin => (sin.in_fs, sin.ino)) =
    (s.mem node).map (fun sin => (sin.in_fs, sin.ino))

theorem SamePlaces.symm (h : SamePlaces s s') : SamePlaces s' s := fun node => (h node).symm

theorem SamePlaces.find (h : SamePlaces s s') (hs : s'.mem node = some sin) :
    ∃ sin', s.mem node = some sin' ∧ sin'.in_fs = sin.in_fs ∧ sin'.ino = sin.ino := by
  have hn := h node
  rw [hs, Option.map_some] at hn
  obtain ⟨sin', hm, he⟩ := Option.map_eq_some_iff.1 hn.symm
  exact ⟨sin', hm, congrArg Prod.fst he, congrArg Prod.snd he⟩

theorem SamePlaces.exists_iff (h : SamePlaces s s') (P : Fs → Word → Prop) :
    (∃ sin, s'.mem node = some sin ∧ P sin.in_fs sin.ino) ↔
      ∃ sin, s.mem node = some sin ∧ P sin.in_fs sin.ino := by
  refine ⟨?_, ?_⟩
  · rintro ⟨sin, hm, hp⟩
    obtain ⟨sin', hm', hf, hi⟩ := h.find hm
    exact ⟨sin', hm', by rw [hf, hi]; exact hp⟩
  · rintro ⟨sin, hm, hp⟩
    obtain ⟨sin', hm', hf, hi⟩ := h.symm.find hm
    exact ⟨sin', hm', by rw [hf, hi]; exact hp⟩

theorem Call.Live.same {c : Call} (hc : c.Live s) (h : SamePlaces s s') : c.Live s' := by
  cases c with
  | loadLock => trivial
  | loadRead sfs ino =>
    intro node sin hm
    obtain ⟨sin', hm', hf, hi⟩ := h.find hm
    rw [← hf, ← hi]
    exact hc node sin' hm'
  | fsync node =>
    obtain ⟨sin, hm⟩ := hc
    obtain ⟨sin', hm', -⟩ := h.symm.find hm
    exact ⟨sin', hm'⟩
  | _ =>
    obtain ⟨sin, hm, hf⟩ := hc
    obtain ⟨sin', hm', hf', -⟩ := h.symm.find hm
    exact ⟨sin', hm', hf'.trans hf⟩

/-- One inode changes in its place. -/
theorem Ok.change (h : Ok s) (hm : s.mem node = some sin) (sin' : sfs_inode)
    (hf : sin'.in_fs = sin.in_fs) (hi : sin'.ino = sin.ino)
    (hmem : s'.mem = update s.mem node (some sin')) (hil : s'.inode_list = s.inode_list)
    (hhl : s'.hash_list = s.hash_list) (hlog : s'.log = s.log)
    (ha : Apart s s' node sin.in_fs sin.ino) (hn : NodeOk s' node sin')
    (hcalls : ∀ c ∈ s'.calls, c ∈ s.calls ∨ c.Live s')
    (hsem : ∀ sfs, s'.calls.countP (Call.inside sfs) = if s'.fs_sem sfs then 1 else 0) : Ok s' := by
  have hsame : SamePlaces s s' := by
    intro node'
    rw [hmem]
    by_cases he : node' = node
    · subst he
      rw [update_self, hm, Option.map_some, Option.map_some, hf, hi]
    · rw [update_of_ne he]
  refine ⟨?_, ?_, ?_, hsem, ?_, ?_, ?_, ?_, ?_⟩
  · intro node' x hx
    by_cases he : node' = node
    · subst he
      rw [hmem, update_self] at hx
      obtain rfl := Option.some_inj.1 hx
      exact hn
    · rw [hmem, update_of_ne he] at hx
      refine (h.nodes node' x hx).apart ha he ?_
      rintro ⟨h1, h2⟩
      exact he (h.unique _ _ _ _ hx hm h1 h2)
  · intro node' hx
    rw [hmem] at hx
    by_cases he : node' = node
    · subst he
      rw [update_self] at hx
      cases hx
    · rw [update_of_ne he] at hx
      rw [ha.refs _ he]
      exact h.gone node' hx
  · intro c hc
    rcases hcalls c hc with hc | hc
    · exact (h.calls c hc).same hsame
    · exact hc
  · intro n1 n2 x1 x2 h1 h2 hff hii
    obtain ⟨y1, hy1, hf1, hi1⟩ := hsame.find h1
    obtain ⟨y2, hy2, hf2, hi2⟩ := hsame.find h2
    exact h.unique _ _ _ _ hy1 hy2 (by rw [hf1, hf2, hff]) (by rw [hi1, hi2, hii])
  · intro sfs
    rw [hil]
    refine ⟨(h.listed sfs).1, fun node' => ?_⟩
    rw [hsame.exists_iff fun f _ => f = sfs]
    exact (h.listed sfs).2 node'
  · intro sfs hh
    rw [hhl]
    refine ⟨(h.hashed sfs hh).1, fun node' => ?_⟩
    rw [hsame.exists_iff fun f i => f = sfs ∧ sin_hashfn i = hh]
    exact (h.hashed sfs hh).2 node'
  · intro node'
    have hsome : (s'.mem node').isSome = (s.mem node').isSome := by
      rw [← Option.isSome_map, hsame node', Option.isSome_map]
    rw [hlog, hsome]
    exact h.log.once node'
  · rw [hlog]
    exact h.log.clean

/-! ## An inode comes or goes -/

section

variable {mem : Addr → Option sfs_inode} {inode_list : Fs → List Addr}
  {hash_list : Fs → Nat → List Addr}

theorem update_mem_iff (node' : Addr) (x : sfs_inode) (o : Option sfs_inode) :
    update mem node o node' = some x ↔
      (node' = node ∧ o = some x) ∨ (node' ≠ node ∧ mem node' = some x) := by
  by_cases he : node' = node
  · subst he
    simp
  · simp [he]

theorem Listed.set (h : Listed mem inode_list) (hm : mem node = none) (sin : sfs_inode) :
    Listed (update mem node (some sin))
      (update inode_list sin.in_fs (node :: inode_list sin.in_fs)) := by
  have hout (sfs : Fs) : node ∉ inode_list sfs := by
    rw [(h sfs).2, hm]
    simp
  intro sfs
  simp only [update_mem_iff]
  by_cases hs : sfs = sin.in_fs
  · subst hs
    rw [update_self]
    refine ⟨List.nodup_cons.2 ⟨hout _, (h _).1⟩, fun node' => ?_⟩
    rw [List.mem_cons, (h _).2]
    by_cases he : node' = node
    · subst he
      simp
    · simp [he]
  · rw [update_of_ne hs]
    refine ⟨(h sfs).1, fun node' => ?_⟩
    rw [(h sfs).2]
    by_cases he : node' = node
    · subst he
      simp [hm, Ne.symm hs]
    · simp [he]

theorem Hashed.set (h : Hashed mem hash_list) (hm : mem node = none) (sin : sfs_inode) :
    Hashed (update mem node (some sin)) (update hash_list sin.in_fs
      (update (hash_list sin.in_fs) (sin_hashfn sin.ino)
        (node :: hash_list sin.in_fs (sin_hashfn sin.ino)))) := by
  have hout (sfs : Fs) (i : Nat) : node ∉ hash_list sfs i := by
    rw [(h sfs i).2, hm]
    simp
  intro sfs i
  simp only [update_mem_iff]
  by_cases hs : sfs = sin.in_fs ∧ i = sin_hashfn sin.ino
  · obtain ⟨rfl, rfl⟩ := hs
    rw [update_self, update_self]
    refine ⟨List.nodup_cons.2 ⟨hout _ _, (h _ _).1⟩, fun node' => ?_⟩
    rw [List.mem_cons, (h _ _).2]
    by_cases he : node' = node
    · subst he
      simp
    · simp [he]
  · have hsame : update hash_list sin.in_fs (update (hash_list sin.in_fs) (sin_hashfn sin.ino)
        (node :: hash_list sin.in_fs (sin_hashfn sin.ino))) sfs i = hash_list sfs i := by
      by_cases hf : sfs = sin.in_fs
      · subst hf
        rw [update_self, update_of_ne fun hi => hs ⟨rfl, hi⟩]
      · rw [update_of_ne hf]
    rw [hsame]
    refine ⟨(h sfs i).1, fun node' => ?_⟩
    rw [(h sfs i).2]
    by_cases he : node' = node
    · subst he
      simp only [hm, reduceCtorEq, false_and, exists_false, true_and, not_true_eq_false, or_false,
        Option.some.injEq, ne_eq, false_iff, not_exists, not_and]
      rintro x rfl hf hi
      exact hs ⟨hf.symm, hi.symm⟩
    · simp [he]

theorem Listed.remove (h : Listed mem inode_list) (hm : mem node = some sin) :
    Listed (update mem node none)
      (update inode_list sin.in_fs ((inode_list sin.in_fs).erase node)) := by
  intro sfs
  simp only [update_mem_iff]
  by_cases hs : sfs = sin.in_fs
  · subst hs
    rw [update_self]
    refine ⟨(h _).1.erase node, fun node' => ?_⟩
    rw [(h _).1.mem_erase_iff, (h _).2]
    simp [and_assoc]
  · rw [update_of_ne hs]
    refine ⟨(h sfs).1, fun node' => ?_⟩
    rw [(h sfs).2]
    by_cases he : node' = node
    · subst he
      simp [hm, Ne.symm hs]
    · simp [he]

theorem Hashed.remove (h : Hashed mem hash_list) (hm : mem node = some sin) :
    Hashed (update mem node none) (update hash_list sin.in_fs
      (update (hash_list sin.in_fs) (sin_hashfn sin.ino)
        ((hash_list sin.in_fs (sin_hashfn sin.ino)).erase node))) := by
  intro sfs i
  simp only [update_mem_iff]
  by_cases hs : sfs = sin.in_fs ∧ i = sin_hashfn sin.ino
  · obtain ⟨rfl, rfl⟩ := hs
    rw [update_self, update_self]
    refine ⟨(h _ _).1.erase node, fun node' => ?_⟩
    rw [(h _ _).1.mem_erase_iff, (h _ _).2]
    simp [and_assoc]
  · have hsame : update hash_list sin.in_fs (update (hash_list sin.in_fs) (sin_hashfn sin.ino)
        ((hash_list sin.in_fs (sin_hashfn sin.ino)).erase node)) sfs i = hash_list sfs i := by
      by_cases hf : sfs = sin.in_fs
      · subst hf
        rw [update_self, update_of_ne fun hi => hs ⟨rfl, hi⟩]
      · rw [update_of_ne hf]
    rw [hsame]
    refine ⟨(h sfs i).1, fun node' => ?_⟩
    rw [(h sfs i).2]
    by_cases he : node' = node
    · subst he
      simp only [hm, Option.some.injEq, ne_eq, not_true_eq_false, false_and, and_false, or_false,
        reduceCtorEq, exists_false, iff_false, not_exists, not_and]
      rintro x rfl hf hi
      exact hs ⟨hf.symm, hi.symm⟩
    · simp [he]

end

theorem LogOk.created (h : LogOk s) (hm : s.mem node = none)
    (hmem : s'.mem = update s.mem node (some sin)) (hlog : s'.log = s.log ++ [.created node]) :
    LogOk s' := by
  refine ⟨fun node' => ?_, fun node' x d hin => ?_⟩
  · have ho := h.once node'
    rw [hlog, hmem, List.countP_append, List.countP_append]
    by_cases he : node' = node
    · subst he
      rw [hm] at ho
      simp [Obs.isCreated, Obs.isDestroyed] at ho ⊢
      exact ho
    · rw [update_of_ne he]
      have he' : ¬ node = node' := fun h => he h.symm
      simpa [Obs.isCreated, Obs.isDestroyed, he'] using ho
  · rw [hlog] at hin
    rcases List.mem_append.1 hin with hin | hin
    · exact h.clean node' x d hin
    · cases List.mem_singleton.1 hin

theorem LogOk.destroyed {disk : sfs_disk_inode} (h : LogOk s) (hm : s.mem node = some sin)
    (hmem : s'.mem = update s.mem node none)
    (hlog : s'.log = s.log ++ [.destroyed node sin disk]) (hr : sin.ref_count = 0)
    (hd : sin.din = disk) : LogOk s' := by
  refine ⟨fun node' => ?_, fun node' x d hin => ?_⟩
  · have ho := h.once node'
    rw [hlog, hmem, List.countP_append, List.countP_append]
    by_cases he : node' = node
    · subst he
      rw [hm] at ho
      simpa [Obs.isCreated, Obs.isDestroyed] using ho
    · rw [update_of_ne he]
      have he' : ¬ node = node' := fun h => he h.symm
      simpa [Obs.isCreated, Obs.isDestroyed, he'] using ho
  · rw [hlog] at hin
    rcases List.mem_append.1 hin with hin | hin
    · exact h.clean node' x d hin
    · cases List.mem_singleton.1 hin
      exact ⟨hr, hd⟩

/-- A new inode. -/
theorem Ok.create (h : Ok s) (hm : s.mem node = none) (sin : sfs_inode)
    (hnew : ∀ node' x, s.mem node' = some x → x.in_fs = sin.in_fs → x.ino ≠ sin.ino)
    (hmem : s'.mem = update s.mem node (some sin)) (hil : Listed s'.mem s'.inode_list)
    (hhl : Hashed s'.mem s'.hash_list) (hlog : LogOk s')
    (ha : Apart s s' node sin.in_fs sin.ino) (hn : NodeOk s' node sin)
    (hcalls : ∀ c ∈ s'.calls, c.Live s')
    (hsem : ∀ sfs, s'.calls.countP (Call.inside sfs) = if s'.fs_sem sfs then 1 else 0) : Ok s' := by
  have hold (node' : Addr) (x : sfs_inode) (hx : s'.mem node' = some x) :
      (node' = node ∧ x = sin) ∨ (node' ≠ node ∧ s.mem node' = some x) := by
    rw [hmem, update_mem_iff] at hx
    exact hx.imp (fun ⟨he, ho⟩ => ⟨he, (Option.some_inj.1 ho).symm⟩) id
  refine ⟨?_, ?_, hcalls, hsem, ?_, hil, hhl, hlog⟩
  · intro node' x hx
    rcases hold node' x hx with ⟨rfl, rfl⟩ | ⟨hne, hx⟩
    · exact hn
    · exact (h.nodes node' x hx).apart ha hne fun hd => hnew node' x hx hd.1 hd.2
  · intro node' hx
    rw [hmem] at hx
    by_cases he : node' = node
    · subst he
      rw [update_self] at hx
      cases hx
    · rw [update_of_ne he] at hx
      rw [ha.refs _ he]
      exact h.gone node' hx
  · intro n1 n2 x1 x2 hx1 hx2 hf hi
    rcases hold n1 x1 hx1 with ⟨rfl, rfl⟩ | ⟨-, hx1⟩ <;>
      rcases hold n2 x2 hx2 with ⟨rfl, rfl⟩ | ⟨-, hx2⟩
    · rfl
    · exact absurd hi.symm (hnew n2 x2 hx2 hf.symm)
    · exact absurd hi (hnew n1 x1 hx1 hf)
    · exact h.unique n1 n2 x1 x2 hx1 hx2 hf hi

/-- An inode goes. -/
theorem Ok.destroy (h : Ok s) (hm : s.mem node = some sin) (hmem : s'.mem = update s.mem node none)
    (hr : s'.refs node = 0) (hil : Listed s'.mem s'.inode_list)
    (hhl : Hashed s'.mem s'.hash_list) (hlog : LogOk s')
    (ha : Apart s s' node sin.in_fs sin.ino) (hcalls : ∀ c ∈ s'.calls, c.Live s')
    (hsem : ∀ sfs, s'.calls.countP (Call.inside sfs) = if s'.fs_sem sfs then 1 else 0) : Ok s' := by
  have hold (node' : Addr) (x : sfs_inode) (hx : s'.mem node' = some x) :
      node' ≠ node ∧ s.mem node' = some x := by
    rw [hmem, update_mem_iff] at hx
    rcases hx with ⟨-, ho⟩ | hx
    · cases ho
    · exact hx
  refine ⟨?_, ?_, hcalls, hsem, ?_, hil, hhl, hlog⟩
  · intro node' x hx
    obtain ⟨hne, hx⟩ := hold node' x hx
    exact (h.nodes node' x hx).apart ha hne fun hd => hne (h.unique _ _ _ _ hx hm hd.1 hd.2)
  · intro node' hx
    by_cases he : node' = node
    · subst he
      exact hr
    · rw [hmem, update_of_ne he] at hx
      rw [ha.refs _ he]
      exact h.gone node' hx
  · intro n1 n2 x1 x2 hx1 hx2
    exact h.unique n1 n2 x1 x2 (hold n1 x1 hx1).2 (hold n2 x2 hx2).2

/-- Only calls that work on no inode come and go. -/
theorem Ok.recall (h : Ok s) {calls : List Call} {fs_sem : Fs → Bool}
    (hcount : ∀ c node, c.about = some node → calls.count c = s.calls.count c)
    (hcalls : ∀ c ∈ calls, c ∈ s.calls ∨ c.Live s)
    (hsem : ∀ sfs, calls.countP (Call.inside sfs) = if fs_sem sfs then 1 else 0) :
    Ok { s with calls := calls, fs_sem := fs_sem } := by
  refine ⟨?_, h.gone, ?_, hsem, h.unique, h.listed, h.hashed, h.log.once, h.log.clean⟩
  · intro node sin hm
    have hn := h.nodes node sin hm
    refine ⟨?_, ?_, ?_, ?_, ?_⟩
    · rw [hcount _ node rfl]
      exact hn.refs
    · rw [hcount _ node rfl]
      exact hn.reclaims
    · unfold leaving
      rw [hcount _ node rfl, hcount _ node rfl]
      exact hn.left
    · rw [hcount _ node rfl, hcount _ node rfl]
      exact hn.saved
    · unfold leaving
      rw [hcount _ node rfl, hcount _ node rfl]
      exact hn.kept
  · intro c hc
    have hsame : SamePlaces s { s with calls := calls, fs_sem := fs_sem } := fun _ => rfl
    rcases hcalls c hc with hc | hc
    · exact (h.calls c hc).same hsame
    · exact hc.same hsame

/-! ## The lock of a file system -/

theorem mem_goOn_inside {calls : List Call} {sfs : Fs} {c : Call} (hc : c ∈ calls)
    (hi : c.inside sfs = true) (h1 : calls.countP (Call.inside sfs) = 1) {d : Call}
    (hd : d ∈ goOn calls c []) : d.inside sfs = false := by
  have hz := countP_goOn hc [] (Call.inside sfs)
  rw [hi, if_pos rfl, h1, List.countP_nil] at hz
  have h0 : (goOn calls c []).countP (Call.inside sfs) = 0 := by omega
  simpa using List.countP_eq_zero.1 h0 d hd

/-- The call that holds the lock is the only one. -/
theorem Ok.alone (h : Ok s) {sfs : Fs} {c d : Call} (hc : c ∈ s.calls)
    (hci : c.inside sfs = true) (hd : d ∈ s.calls) (hdi : d.inside sfs = true) : d = c := by
  by_contra hne
  have hpos : 0 < s.calls.countP (Call.inside sfs) := List.countP_pos_iff.2 ⟨c, hc, hci⟩
  have h1 : s.calls.countP (Call.inside sfs) = 1 := by
    rw [h.sem sfs] at hpos ⊢
    split_ifs at hpos ⊢
    · rfl
    · omega
  have hin : d ∈ goOn s.calls c [] := (List.mem_erase_of_ne hne).2 hd
  rw [mem_goOn_inside hc hci h1 hin] at hdi
  cases hdi

/-- While the lock is free no inode is about to go. -/
theorem Ok.not_leaving (h : Ok s) {sfs : Fs} (hfree : s.fs_sem sfs = false) (node : Addr) :
    leaving s sfs node = 0 := by
  have hz : s.calls.countP (Call.inside sfs) = 0 := by
    rw [h.sem sfs, hfree, if_neg Bool.false_ne_true]
  have hnot (c : Call) (hi : c.inside sfs = true) : s.calls.count c = 0 := by
    refine List.count_eq_zero_of_not_mem fun hc => ?_
    have := List.countP_eq_zero.1 hz c hc
    exact this hi
  unfold leaving
  rw [hnot _ (by simp [Call.inside]), hnot _ (by simp [Call.inside])]

/-- The lock after a call that held it or not goes on to hold it or not. -/
theorem sem_goOn (h : Ok s) (sfs : Fs) {c : Call} (hc : c ∈ s.calls) {new : List Call} {b : Bool}
    (hthis : new.countP (Call.inside sfs) + (if s.fs_sem sfs then 1 else 0) =
      (if b then 1 else 0) + if c.inside sfs then 1 else 0)
    (hother : ∀ sfs', sfs' ≠ sfs → c.inside sfs' = false ∧ ∀ d ∈ new, d.inside sfs' = false)
    (sfs' : Fs) : (goOn s.calls c new).countP (Call.inside sfs') =
      if update s.fs_sem sfs b sfs' then 1 else 0 := by
  have hz := countP_goOn hc new (Call.inside sfs')
  rw [h.sem sfs'] at hz
  by_cases hs : sfs' = sfs
  · subst hs
    rw [update_self]
    omega
  · obtain ⟨h1, h2⟩ := hother sfs' hs
    have h3 : new.countP (Call.inside sfs') = 0 :=
      List.countP_eq_zero.2 fun d hd => by simp [h2 d hd]
    rw [h1, h3, if_neg Bool.false_ne_true] at hz
    rw [update_of_ne hs]
    omega

/-- A call that does not hold the lock goes on without it. -/
theorem sem_goOn_out (h : Ok s) {c : Call} (hc : c ∈ s.calls) {new : List Call}
    (hout : ∀ sfs, ∀ d ∈ c :: new, d.inside sfs = false) (sfs : Fs) :
    (goOn s.calls c new).countP (Call.inside sfs) = if s.fs_sem sfs then 1 else 0 := by
  have hz := countP_goOn hc new (Call.inside sfs)
  have h3 : new.countP (Call.inside sfs) = 0 :=
    List.countP_eq_zero.2 fun d hd => by simp [hout sfs d (List.mem_cons_of_mem c hd)]
  rw [h.sem sfs, hout sfs c List.mem_cons_self, if_neg Bool.false_ne_true, h3] at hz
  omega

theorem Ok.locked (h : Ok s) {sfs : Fs} {c : Call} (hc : c ∈ s.calls)
    (hi : c.inside sfs = true) : s.fs_sem sfs = true := by
  have hpos : 0 < s.calls.countP (Call.inside sfs) := List.countP_pos_iff.2 ⟨c, hc, hi⟩
  rw [h.sem sfs] at hpos
  by_contra hb
  rw [if_neg hb] at hpos
  exact absurd hpos (lt_irrefl 0)

/-! ## References -/

/-- The step goes well, or it meets an inode on the disk without a link. -/
abbrev Fine (x : Except Failed Sys) : Prop := Ends Ok (· = .nlinks) x

/-- An inode that is used is not about to go. -/
theorem NodeOk.staying (h : NodeOk s node sin) (hr : 0 < sin.ref_count) :
    leaving s sin.in_fs node = 0 := by
  by_contra hl
  have h0 := (h.left hl).1
  omega

theorem Ok.held (h : Ok s) (hr : 0 < s.refs node) :
    ∃ sin, s.mem node = some sin ∧ NodeOk s node sin ∧ 0 < sin.ref_count := by
  cases hm : s.mem node with
  | none => exact absurd (h.gone node hm) (by omega)
  | some sin =>
    have hn := h.nodes node sin hm
    have hrefs := hn.refs
    exact ⟨sin, rfl, hn, by omega⟩

theorem node_some (hm : s.mem node = some sin) : s.node node = .ok sin := by
  unfold Sys.node
  rw [hm]

/-- With one inode edited, and its references, nothing happens to the others. -/
theorem apart_setRefs (s : Sys) (node : Addr) (sin : sfs_inode) (n : Nat) (sfs : Fs) (ino : Word) :
    Apart s ((s.setNode node sin).setRefs node n) node sfs ino :=
  ⟨fun _ hne => update_of_ne hne _ _, fun _ _ => rfl, fun _ _ _ _ => rfl, fun _ _ _ => rfl⟩

theorem inode_ref_inc_fine (h : Ok s) (hr : 0 < s.refs node) :
    Fine (Event.step s (.inode_ref_inc node)) := by
  obtain ⟨sin, hm, hn, hpos⟩ := h.held hr
  have hrefs := hn.refs
  have hrecl := hn.reclaims
  have hstay := hn.staying hpos
  simp only [Event.step, inode_ref_inc, node_some hm]
  refine h.change hm { sin with ref_count := sin.ref_count + 1 } rfl rfl rfl rfl rfl rfl
    (apart_setRefs _ _ _ _ _ _) ?_ (fun c hc => Or.inl hc) h.sem
  refine ⟨?_, ?_, ?_, hn.saved, ?_⟩
  · simp only [Sys.setRefs, Sys.setNode, update_self]
    omega
  · rw [hrecl, if_neg (by omega), if_neg (by simp)]
    rfl
  · intro hl
    exact absurd hstay hl
  · intro h0
    cases h0

theorem inode_ref_dec_fine (h : Ok s) (hr : 0 < s.refs node) : Fine (inode_ref_dec s node) := by
  obtain ⟨sin, hm, hn, hpos⟩ := h.held hr
  have hrefs := hn.refs
  have hrecl := hn.reclaims
  have hstay := hn.staying hpos
  rw [if_neg (by omega)] at hrecl
  unfold inode_ref_dec
  rw [node_some hm]
  show Fine (if sin.ref_count = 0 then _ else _)
  rw [if_neg (by omega)]
  by_cases hlast : sin.ref_count - 1 = 0
  · rw [if_pos hlast]
    refine h.change hm { sin with ref_count := sin.ref_count - 1 } rfl rfl rfl rfl rfl rfl
      ?_ ?_ ?_ ?_
    · refine ⟨fun _ hne => update_of_ne hne _ _, fun _ _ => rfl, ?_, fun _ _ _ => rfl⟩
      intro c node' hc hne
      refine List.count_cons_of_ne ?_
      rintro rfl
      exact hne (Option.some_inj.1 hc).symm
    · refine ⟨?_, ?_, ?_, ?_, ?_⟩
      · simp [Sys.setRefs, Sys.setNode]
        omega
      · simp [Sys.setRefs, Sys.setNode, hlast]
        omega
      · intro hl
        refine absurd hstay ?_
        simpa [leaving, Sys.setRefs, Sys.setNode] using hl
      · simpa [Sys.setRefs, Sys.setNode] using hn.saved
      · intro _ h0
        have h1 : sin.reclaim_count = 0 := h0
        omega
    · intro c hc
      rcases List.mem_cons.1 hc with rfl | hc
      · exact Or.inr ⟨_, update_self _ _ _, rfl⟩
      · exact Or.inl hc
    · intro sfs
      rw [List.countP_cons_of_neg (by simp [Call.inside])]
      exact h.sem sfs
  · rw [if_neg hlast]
    refine h.change hm { sin with ref_count := sin.ref_count - 1 } rfl rfl rfl rfl rfl rfl
      (apart_setRefs _ _ _ _ _ _) ?_ (fun c hc => Or.inl hc) h.sem
    refine ⟨?_, ?_, ?_, hn.saved, ?_⟩
    · simp only [Sys.setRefs, Sys.setNode, update_self]
      omega
    · rw [if_neg hlast]
      exact hrecl
    · intro hl
      exact absurd hstay hl
    · intro h0
      exact absurd h0 hlast

/-! ## `sfs_load_inode` -/

/-- The walk finds the inode with the number, if it is in memory. -/
theorem findIno_spec (ino : Word) : ∀ {nodes : List Addr},
    (∀ node ∈ nodes, ∃ sin, s.mem node = some sin) →
    (∃ node sin, findIno s ino nodes = .ok (some node) ∧ node ∈ nodes ∧ s.mem node = some sin ∧
      sin.ino = ino) ∨
    (findIno s ino nodes = .ok none ∧
      ∀ node ∈ nodes, ∀ sin, s.mem node = some sin → sin.ino ≠ ino)
  | [], _ => Or.inr ⟨rfl, fun _ h => absurd h List.not_mem_nil⟩
  | node :: rest, hl => by
    obtain ⟨sin, hm⟩ := hl node List.mem_cons_self
    have hstep : findIno s ino (node :: rest) =
        if sin.ino = ino then .ok (some node) else findIno s ino rest := by
      simp only [findIno, node_some hm]
      rfl
    rw [hstep]
    by_cases hi : sin.ino = ino
    · exact Or.inl ⟨node, sin, if_pos hi, List.mem_cons_self, hm, hi⟩
    · rw [if_neg hi]
      rcases findIno_spec ino fun n hn => hl n (List.mem_cons_of_mem node hn) with
        ⟨n, x, h1, h2, h3, h4⟩ | ⟨h1, h2⟩
      · exact Or.inl ⟨n, x, h1, List.mem_cons_of_mem node h2, h3, h4⟩
      · refine Or.inr ⟨h1, ?_⟩
        intro n hn x hx
        rcases List.mem_cons.1 hn with rfl | hn
        · obtain rfl := Option.some_inj.1 (hm.symm.trans hx)
          exact hi
        · exact h2 n hn x hx

theorem Ok.findIno (h : Ok s) (sfs : Fs) (ino : Word) :
    (∃ node sin, reclaim.findIno s ino (s.hash_list sfs (sin_hashfn ino)) = .ok (some node) ∧
      s.mem node = some sin ∧ sin.in_fs = sfs ∧ sin.ino = ino) ∨
    (reclaim.findIno s ino (s.hash_list sfs (sin_hashfn ino)) = .ok none ∧
      ∀ node sin, s.mem node = some sin → sin.in_fs = sfs → sin.ino ≠ ino) := by
  have hh := (h.hashed sfs (sin_hashfn ino)).2
  rcases findIno_spec ino fun node hn => ((hh node).1 hn).imp fun _ hx => hx.1 with
    ⟨node, sin, h1, h2, h3, h4⟩ | ⟨h1, h2⟩
  · obtain ⟨sin', hm, hf, -⟩ := (hh node).1 h2
    obtain rfl := Option.some_inj.1 (h3.symm.trans hm)
    exact Or.inl ⟨node, _, h1, h3, hf, h4⟩
  · refine Or.inr ⟨h1, ?_⟩
    intro node sin hm hf hi
    exact h2 node ((hh node).2 ⟨sin, hm, hf, by rw [hi]⟩) sin hm hi

/-- A lookup gives a reference also to an inode that waits to be reclaimed. -/
theorem revive_fine (h : Ok s) {sfs : Fs} {ino : Word} (hc : .loadLock sfs ino ∈ s.calls)
    (hfree : s.fs_sem sfs = false) (hm : s.mem node = some sin) (hf : sin.in_fs = sfs) :
    Fine (revive (s.goOn (.loadLock sfs ino) []) node) := by
  have hn := h.nodes node sin hm
  have hrefs := hn.refs
  have hrecl := hn.reclaims
  have hstay := h.not_leaving hfree node
  have hm' : (s.goOn (.loadLock sfs ino) []).mem node = some sin := hm
  have hcount (c : Call) (hca : c.about = some node) :
      (goOn s.calls (.loadLock sfs ino) []).count c = s.calls.count c := by
    refine count_goOn_ne ?_ List.not_mem_nil
    rintro rfl
    cases hca
  have hsem := @sem_goOn_out s h _ hc [] (by simp [Call.inside])
  let sin' : sfs_inode := { sin with
    ref_count := sin.ref_count + 1
    reclaim_count := if sin.ref_count + 1 = 1 then sin.reclaim_count + 1 else sin.reclaim_count }
  have hx : revive (s.goOn (.loadLock sfs ino) []) node = .ok
      ((((s.goOn (.loadLock sfs ino) []).setNode node sin').setRefs node
        (s.refs node + 1)).setKept node false) := by
    have hm1 : ((s.goOn (.loadLock sfs ino) []).setNode node
        { sin with ref_count := sin.ref_count + 1 }).mem node =
        some { sin with ref_count := sin.ref_count + 1 } := update_self _ _ _
    simp only [revive, inode_ref_inc, node_some hm', pure, Except.pure, bind, Except.bind,
      node_some hm1]
    by_cases h1 : sin.ref_count + 1 = 1
    · simp only [if_pos h1, sin']
      unfold Sys.setNode
      simp only [update_idem]
      rfl
    · simp only [if_neg h1, sin']
      rfl
  rw [hx]
  refine h.change hm sin' rfl rfl rfl rfl rfl rfl ?_ ?_ ?_ hsem
  · refine ⟨fun _ hne => update_of_ne hne _ _, fun _ hne => update_of_ne hne _ _, ?_,
      fun _ _ _ => rfl⟩
    intro c node' hca _
    refine count_goOn_ne ?_ List.not_mem_nil
    rintro rfl
    cases hca
  · refine ⟨?_, ?_, ?_, ?_, ?_⟩
    · show sin.ref_count + 1 = update s.refs node (s.refs node + 1) node + _
      rw [update_self]
      have := hcount (.fsync node) rfl
      show _ = _ + (goOn s.calls (.loadLock sfs ino) []).count (.fsync node)
      omega
    · have := hcount (.reclaimLock sin.in_fs node) rfl
      show (if sin.ref_count + 1 = 1 then sin.reclaim_count + 1 else sin.reclaim_count) =
        (goOn s.calls (.loadLock sfs ino) []).count (.reclaimLock sin.in_fs node) +
          if sin.ref_count + 1 = 0 then 0 else 1
      rw [this, if_neg (Nat.succ_ne_zero _)]
      split_ifs at hrecl ⊢ <;> omega
    · intro hl
      refine absurd ?_ hl
      show (goOn s.calls (.loadLock sfs ino) []).count (.reclaimTruncate sin.in_fs node) +
        (goOn s.calls (.loadLock sfs ino) []).count (.reclaimFsync sin.in_fs node) = 0
      rw [hcount _ rfl, hcount _ rfl, hf]
      exact hstay
    · intro hd h1 h2
      refine hn.saved hd ?_ ?_
      · rw [← hcount _ rfl]
        exact h1
      · rw [← hcount _ rfl]
        exact h2
    · intro h0
      cases h0
  · intro c hcc
    rcases mem_goOn hcc with hcc | hcc
    · cases hcc
    · exact Or.inl hcc

theorem loadLocked_fine (h : Ok s) {sfs : Fs} {ino : Word} (memory : Bool)
    (hc : .loadLock sfs ino ∈ s.calls) (hfree : s.fs_sem sfs = false) :
    Fine (loadLocked s sfs ino memory) := by
  have habout : ∀ (new : List Call), (∀ d ∈ new, d.about = none) → ∀ c node,
      Call.about c = some node → (goOn s.calls (.loadLock sfs ino) new).count c = s.calls.count c := by
    intro new hnew c node hca
    refine count_goOn_ne ?_ fun hn => ?_
    · rintro rfl
      cases hca
    · rw [hnew c hn] at hca
      cases hca
  unfold loadLocked
  rcases h.findIno sfs ino with ⟨node, sin, hx, hm, hf, -⟩ | ⟨hx, hnone⟩
  · rw [hx]
    exact revive_fine h hc hfree hm hf
  · rw [hx]
    cases memory with
    | true =>
      refine h.recall (habout _ (by simp [Call.about])) ?_
        (sem_goOn h sfs hc (by simp [Call.inside, hfree]) (fun sfs' hne => ⟨rfl, ?_⟩))
      · intro c hcc
        rcases mem_goOn hcc with hcc | hcc
        · obtain rfl := List.mem_singleton.1 hcc
          exact Or.inr hnone
        · exact Or.inl hcc
      · intro d hd
        obtain rfl := List.mem_singleton.1 hd
        simpa [Call.inside] using fun he => hne he.symm
    | false =>
      have hsem := @sem_goOn_out s h _ hc [] (by simp [Call.inside])
      refine h.recall (habout [] (fun d hd => absurd hd List.not_mem_nil)) ?_ hsem
      intro c hcc
      rcases mem_goOn hcc with hcc | hcc
      · cases hcc
      · exact Or.inl hcc

/-- The calls that hold no lock any more, after the one that did. -/
theorem sem_release (h : Ok s) {sfs : Fs} {c : Call} (hc : c ∈ s.calls)
    (hout : ∀ sfs', sfs' ≠ sfs → c.inside sfs' = false)
    (hin : c.inside sfs = s.fs_sem sfs) (sfs' : Fs) :
    (goOn s.calls c []).countP (Call.inside sfs') =
      if update s.fs_sem sfs false sfs' then 1 else 0 := by
  refine sem_goOn h sfs hc ?_ (fun sfs' hne => ⟨hout sfs' hne, fun _ hd => absurd hd List.not_mem_nil⟩)
    sfs'
  rw [hin, List.countP_nil, if_neg Bool.false_ne_true]

theorem loadRead_release (h : Ok s) {sfs : Fs} {ino : Word} (hc : .loadRead sfs ino ∈ s.calls) :
    ∀ sfs', (goOn s.calls (.loadRead sfs ino) []).countP (Call.inside sfs') =
      if update s.fs_sem sfs false sfs' then 1 else 0 := by
  have hi : Call.inside sfs (.loadRead sfs ino) = true := by simp [Call.inside]
  refine sem_release h hc ?_ (by rw [hi, h.locked hc hi])
  intro sfs' hne
  simpa [Call.inside] using fun he => hne he.symm


theorem live_update {c : Call} (hc : c.Live s) (hm : s.mem node = none)
    (hmem : s'.mem = update s.mem node (some sin))
    (hread : ∀ sfs ino, c = .loadRead sfs ino → sfs ≠ sin.in_fs) : c.Live s' := by
  have hold : ∀ n x, s.mem n = some x → s'.mem n = some x := by
    intro n x hx
    rw [hmem, update_mem_iff]
    refine Or.inr ⟨?_, hx⟩
    rintro rfl
    rw [hm] at hx
    cases hx
  cases c with
  | loadLock => trivial
  | loadRead sfs ino =>
    intro n x hx hf
    rw [hmem, update_mem_iff] at hx
    rcases hx with ⟨-, ho⟩ | ⟨-, hx⟩
    · obtain rfl := Option.some_inj.1 ho
      exact absurd hf.symm (hread sfs ino rfl)
    · exact hc n x hx hf
  | fsync n => exact hc.imp fun x hx => hold n x hx
  | _ => exact hc.imp fun x hx => ⟨hold _ x hx.1, hx.2⟩

/-- The counts of a new inode. -/
theorem nodeOk_create {sfs : Fs} {ino : Word} {din : sfs_disk_inode}
    (hr : s.refs node = 1) (hdisk : s.disk sfs ino = din)
    (hc : ∀ c : Call, c.about = some node → s.calls.count c = 0) :
    NodeOk s node ⟨sfs, ino, din, false, 1, 1⟩ := by
  refine ⟨?_, ?_, ?_, fun _ _ _ => hdisk, ?_⟩
  · rw [hr, hc _ rfl]
  · rw [hc _ rfl]
    rfl
  · intro hl
    refine absurd ?_ hl
    unfold leaving
    rw [hc _ rfl, hc _ rfl]
  · intro h0
    cases h0

/-- A new inode is made while the lock is held, so nobody else makes it. -/
theorem loadDone_fine (h : Ok s) {sfs : Fs} {ino : Word} (result : Option Addr)
    (hc : .loadRead sfs ino ∈ s.calls) (hm : ∀ node ∈ result, s.mem node = none) :
    Fine (loadDone s sfs ino result) := by
  have hi : Call.inside sfs (.loadRead sfs ino) = true := by simp [Call.inside]
  have h1 : s.calls.countP (Call.inside sfs) = 1 := by
    rw [h.sem sfs, h.locked hc hi, if_pos rfl]
  have hcount (c : Call) (node : Addr) (hca : c.about = some node) :
      (goOn s.calls (.loadRead sfs ino) []).count c = s.calls.count c := by
    refine count_goOn_ne ?_ List.not_mem_nil
    rintro rfl
    cases hca
  cases result with
  | none =>
    refine h.recall hcount (fun c hcc => ?_) (loadRead_release h hc)
    exact Or.inl (List.mem_of_mem_erase hcc)
  | some node =>
    have hnode := hm node rfl
    unfold loadDone
    simp only
    by_cases hl : (s.disk sfs ino).nlinks = 0
    · rw [if_pos (show (((s.goOn (.loadRead sfs ino) []).setSem sfs false).disk sfs ino).nlinks = 0
        from hl)]
      rfl
    rw [if_neg (show ¬ (((s.goOn (.loadRead sfs ino) []).setSem sfs false).disk sfs ino).nlinks = 0
      from hl)]
    have hzero (c : Call) (hca : c.about = some node) : s.calls.count c = 0 := by
      refine List.count_eq_zero_of_not_mem fun hin => ?_
      have hlive := h.calls c hin
      cases c with
      | loadLock => cases hca
      | loadRead => cases hca
      | fsync n =>
        obtain rfl := Option.some_inj.1 hca
        obtain ⟨x, hx⟩ := hlive
        rw [hnode] at hx
        cases hx
      | _ =>
        obtain rfl := Option.some_inj.1 hca
        obtain ⟨x, hx, -⟩ := hlive
        rw [hnode] at hx
        cases hx
    refine h.create hnode ⟨sfs, ino, s.disk sfs ino, false, 1, 1⟩ (h.calls _ hc) rfl
      (h.listed.set hnode _) (h.hashed.set hnode _) (h.log.created hnode rfl rfl) ?_ ?_ ?_
      (loadRead_release h hc)
    · exact ⟨fun _ hne => update_of_ne hne _ _, fun _ hne => update_of_ne hne _ _,
        fun c n hca _ => hcount c n hca, fun _ _ _ => rfl⟩
    · refine nodeOk_create ?_ rfl fun c hca => (hcount c node hca).trans (hzero c hca)
      show update s.refs node (s.refs node + 1) node = 1
      rw [update_self, h.gone node hnode]
    · intro c hcc
      refine live_update (h.calls c (List.mem_of_mem_erase hcc)) hnode rfl ?_
      rintro sfs' ino' rfl rfl
      have hout := mem_goOn_inside hc hi h1 hcc
      simp [Call.inside] at hout

/-! ## `sfs_reclaim` -/

/-- The reclaim that holds the lock has an inode that nobody uses. -/
theorem Ok.going (h : Ok s) {sfs : Fs} {c : Call}
    (hc : c = .reclaimTruncate sfs node ∨ c = .reclaimFsync sfs node) (hin : c ∈ s.calls) :
    ∃ sin, s.mem node = some sin ∧ sin.in_fs = sfs ∧ NodeOk s node sin ∧
      leaving s sfs node ≠ 0 ∧ sin.ref_count = 0 ∧ sin.reclaim_count = 0 := by
  have hlive := h.calls c hin
  have hpos := List.count_pos_iff.2 hin
  have hex : ∃ sin, s.mem node = some sin ∧ sin.in_fs = sfs := by
    rcases hc with rfl | rfl
    · exact hlive
    · exact hlive
  obtain ⟨sin, hm, hf⟩ := hex
  have hn := h.nodes node sin hm
  have hl : leaving s sfs node ≠ 0 := by
    unfold leaving
    rcases hc with rfl | rfl <;> omega
  subst hf
  exact ⟨sin, hm, rfl, hn, hl, hn.left hl⟩

theorem inside_going {sfs : Fs} {c : Call}
    (hc : c = .reclaimTruncate sfs node ∨ c = .reclaimFsync sfs node) :
    c.inside sfs = true ∧ c.about = some node ∧ ∀ sfs', sfs' ≠ sfs → c.inside sfs' = false := by
  rcases hc with rfl | rfl
  · exact ⟨by simp [Call.inside], rfl, fun sfs' hne => by
      simpa [Call.inside] using fun he => hne he.symm⟩
  · exact ⟨by simp [Call.inside], rfl, fun sfs' hne => by
      simpa [Call.inside] using fun he => hne he.symm⟩

/-- The reclaim destroys an inode that is saved. -/
theorem reclaimKill_fine (h : Ok s) {sfs : Fs} {c : Call}
    (hc : c = .reclaimTruncate sfs node ∨ c = .reclaimFsync sfs node) (hin : c ∈ s.calls)
    (hm : s.mem node = some sin) (hsaved : s.disk sfs sin.ino = sin.din) :
    Fine (reclaimKill s sfs node c) := by
  obtain ⟨sin', hm', hf, hn, -, hr0, hq0⟩ := h.going hc hin
  obtain rfl := Option.some_inj.1 (hm.symm.trans hm')
  obtain ⟨hi, hca, hout⟩ := inside_going hc
  subst hf
  have hrefs := hn.refs
  have hrecl := hn.reclaims
  have h1 : s.calls.countP (Call.inside sin.in_fs) = 1 := by
    rw [h.sem sin.in_fs, h.locked hin hi, if_pos rfl]
  unfold reclaimKill
  rw [node_some hm]
  show Fine (if sin.ref_count ≠ 0 then _ else _)
  rw [if_neg (not_not.2 hr0)]
  refine h.destroy hm rfl ?_ (h.listed.remove hm) (h.hashed.remove hm)
    (h.log.destroyed hm rfl rfl hr0 hsaved.symm) ?_ ?_ ?_
  · show s.refs node = 0
    omega
  · refine ⟨fun _ _ => rfl, fun _ _ => rfl, ?_, fun _ _ _ => rfl⟩
    intro d n hd hne
    refine count_goOn_ne ?_ List.not_mem_nil
    rintro rfl
    exact hne (Option.some_inj.1 (hd.symm.trans hca))
  · intro d hd
    have hd' : d ∈ goOn s.calls c [] := hd
    have hmem := List.mem_of_mem_erase hd'
    have hdout := mem_goOn_inside hin hi h1 hd'
    have hlive := h.calls d hmem
    have hpos := List.count_pos_iff.2 hmem
    have hkeep : ∀ n x, n ≠ node → s.mem n = some x → update s.mem node none n = some x := by
      intro n x hne hx
      rw [update_of_ne hne, hx]
    cases d with
    | loadLock => trivial
    | loadRead sfs' ino' =>
      intro n x hx
      have hx' : update s.mem node none n = some x := hx
      rw [update_mem_iff] at hx'
      rcases hx' with ⟨-, ho⟩ | ⟨-, hx'⟩
      · cases ho
      · exact hlive n x hx'
    | fsync n =>
      refine hlive.imp fun x hx => hkeep n x ?_ hx
      rintro rfl
      omega
    | reclaimLock sfs' n =>
      refine hlive.imp fun x hx => ⟨hkeep n x ?_ hx.1, hx.2⟩
      rintro rfl
      obtain rfl := Option.some_inj.1 (hm.symm.trans hx.1)
      rw [hx.2] at hrecl
      omega
    | reclaimTruncate sfs' n =>
      refine hlive.imp fun x hx => ⟨hkeep n x ?_ hx.1, hx.2⟩
      rintro rfl
      obtain rfl := Option.some_inj.1 (hm.symm.trans hx.1)
      simp [Call.inside, hx.2] at hdout
    | reclaimFsync sfs' n =>
      refine hlive.imp fun x hx => ⟨hkeep n x ?_ hx.1, hx.2⟩
      rintro rfl
      obtain rfl := Option.some_inj.1 (hm.symm.trans hx.1)
      simp [Call.inside, hx.2] at hdout
  · exact sem_release h hin hout (by rw [hi, h.locked hin hi])

/-- The call of the reclaim is the only one about the inode. -/
theorem Ok.going_alone (h : Ok s) {sfs : Fs} {c d : Call}
    (hc : c = .reclaimTruncate sfs node ∨ c = .reclaimFsync sfs node) (hin : c ∈ s.calls)
    (hd : d = .reclaimTruncate sfs node ∨ d = .reclaimFsync sfs node) (hne : d ≠ c) :
    s.calls.count d = 0 := by
  refine List.count_eq_zero_of_not_mem fun hdin => hne ?_
  exact h.alone hin (inside_going hc).1 hdin (inside_going hd).1

/-- An edit marks the inode, whoever makes it. -/
theorem Ok.marked (h : Ok s) (hm : s.mem node = some sin) (din : sfs_disk_inode) :
    Ok (s.setNode node { sin with din := din, dirty := true }) := by
  have hn := h.nodes node sin hm
  refine h.change hm { sin with din := din, dirty := true } rfl rfl rfl rfl rfl rfl
    ⟨fun _ _ => rfl, fun _ _ => rfl, fun _ _ _ _ => rfl, fun _ _ _ => rfl⟩
    ⟨hn.refs, hn.reclaims, hn.left, ?_, hn.kept⟩ (fun d hd => Or.inl hd) h.sem
  intro hd
  cases hd

theorem reclaimFlush_fine (h : Ok s) {sfs : Fs}
    (hin : .reclaimTruncate sfs node ∈ s.calls) :
    Fine (reclaimFlush s sfs node (.reclaimTruncate sfs node)) := by
  obtain ⟨sin, hm, hf, hn, hl, hr0, hq0⟩ := h.going (Or.inl rfl) hin
  subst hf
  have hrefs := hn.refs
  have hnone := @Ok.going_alone s node h sin.in_fs _ (.reclaimFsync sin.in_fs node) (Or.inl rfl) hin
    (Or.inr rfl) (by simp)
  have hi : Call.inside sin.in_fs (.reclaimTruncate sin.in_fs node) = true := by
    simp [Call.inside]
  unfold reclaimFlush
  rw [node_some hm]
  show Fine (if sin.dirty = true then _ else _)
  cases hdirty : sin.dirty with
  | false =>
    rw [if_neg Bool.false_ne_true]
    exact reclaimKill_fine h (Or.inl rfl) hin hm (hn.saved hdirty (by omega) hnone)
  | true =>
    rw [if_pos rfl]
    have hother (d : Call) (h1 : d ≠ .reclaimTruncate sin.in_fs node)
        (h2 : d ≠ .reclaimFsync sin.in_fs node) :
        (goOn s.calls (.reclaimTruncate sin.in_fs node) [.reclaimFsync sin.in_fs node]).count d =
          s.calls.count d := count_goOn_ne h1 (by simpa using h2)
    have hnew := @count_goOn_new _ _ s.calls (.reclaimTruncate sin.in_fs node)
      (.reclaimFsync sin.in_fs node) (by simp)
    refine h.change hm { sin with dirty := false } rfl rfl rfl rfl rfl rfl ?_ ?_ ?_ ?_
    · refine ⟨fun _ _ => rfl, fun _ _ => rfl, fun d n hd hne => hother d ?_ ?_, fun _ _ _ => rfl⟩
      · rintro rfl
        exact hne (Option.some_inj.1 hd).symm
      · rintro rfl
        exact hne (Option.some_inj.1 hd).symm
    · refine ⟨?_, ?_, fun _ => ⟨hr0, hq0⟩, ?_, ?_⟩
      · exact hn.refs.trans (congrArg (s.refs node + ·) (hother (.fsync node) (by simp) (by simp)).symm)
      · exact hn.reclaims.trans (congrArg (· + _)
          (hother (.reclaimLock sin.in_fs node) (by simp) (by simp)).symm)
      · intro _ _ h0
        exact absurd (hnew.symm.trans h0) (Nat.succ_ne_zero _)
      · intro _ _ h0
        have hz : (goOn s.calls (.reclaimTruncate sin.in_fs node)
          [.reclaimFsync sin.in_fs node]).count (.reclaimFsync sin.in_fs node) = 0 :=
          (Nat.add_eq_zero_iff.1 h0).2
        exact absurd (hnew.symm.trans hz) (Nat.succ_ne_zero _)
    · intro d hd
      rcases mem_goOn hd with hd | hd
      · obtain rfl := List.mem_singleton.1 hd
        exact Or.inr ⟨_, update_self _ _ _, rfl⟩
      · exact Or.inl hd
    · refine sem_goOn h sin.in_fs hin ?_ ?_
      · rw [h.locked hin hi, hi]
        simp [Call.inside]
      · intro sfs' hne
        have hne' : ¬ sin.in_fs = sfs' := fun he => hne he.symm
        simp [Call.inside, hne']

/-- The reclaim is the call in the middle of `vop_truncate`, whatever it was before. -/
theorem reclaimFlush_eq {sfs : Fs} {c : Call} (s : Sys) (node : Addr) :
    reclaimFlush s sfs node c =
      reclaimFlush ((s.goOn c [.reclaimTruncate sfs node]).setSem sfs true) sfs node
        (.reclaimTruncate sfs node) := by
  have hcalls (new : List Call) : goOn (goOn s.calls c [.reclaimTruncate sfs node])
      (.reclaimTruncate sfs node) new = goOn s.calls c new := by
    unfold goOn
    simp
  have hnode : ((s.goOn c [.reclaimTruncate sfs node]).setSem sfs true).node node = s.node node :=
    rfl
  unfold reclaimFlush reclaimKill
  rw [hnode]
  cases s.node node with
  | error e => rfl
  | ok sin =>
    simp only [bind, Except.bind]
    cases sin.dirty
    · simp [Sys.goOn, Sys.setSem, sfs_remove_links, hcalls]
    · simp [Sys.goOn, Sys.setSem, Sys.setNode, hcalls]

/-- A reclaim that fails gives the lock back and leaves the inode where it is. -/
theorem failedUnlock_ok (h : Ok s) {sfs : Fs} {c : Call}
    (hc : c = .reclaimTruncate sfs node ∨ c = .reclaimFsync sfs node) (hin : c ∈ s.calls)
    (hm : s.mem node = some sin) (hsaved : c = .reclaimFsync sfs node → sin.dirty = true) :
    Ok (failedUnlock s sfs node c) := by
  obtain ⟨sin', hm', hf, hn, hl, hr0, hq0⟩ := h.going hc hin
  obtain rfl := Option.some_inj.1 (hm.symm.trans hm')
  obtain ⟨hi, hca, hout⟩ := inside_going hc
  subst hf
  have hother (d : Call) (h1 : d ≠ c) : (goOn s.calls c []).count d = s.calls.count d :=
    count_goOn_ne h1 List.not_mem_nil
  have hfs : Call.fsync node ≠ c := by rcases hc with rfl | rfl <;> simp
  have hlk : Call.reclaimLock sin.in_fs node ≠ c := by rcases hc with rfl | rfl <;> simp
  refine h.change hm sin rfl rfl (update_eq_self_iff.2 hm.symm).symm rfl rfl rfl
    ?_ ?_ (fun d hd => Or.inl (List.mem_of_mem_erase hd))
    (sem_release h hin hout (by rw [hi, h.locked hin hi]))
  · refine ⟨fun _ _ => rfl, fun _ hne => update_of_ne hne _ _, fun d n hd hne => hother d ?_,
      fun _ _ _ => rfl⟩
    rintro rfl
    exact hne (Option.some_inj.1 (hd.symm.trans hca))
  · refine ⟨?_, ?_, fun _ => ⟨hr0, hq0⟩, ?_, fun _ _ _ => update_self _ _ _⟩
    · exact hn.refs.trans (congrArg (s.refs node + ·) (hother _ hfs).symm)
    · exact hn.reclaims.trans (congrArg (· + _) (hother _ hlk).symm)
    · intro hd hf0 hs0
      have hne : Call.reclaimFsync sin.in_fs node ≠ c := by
        intro he
        rw [hsaved he.symm] at hd
        cases hd
      exact hn.saved hd ((hother _ hfs).symm.trans hf0) ((hother _ hne).symm.trans hs0)

theorem reclaimLocked_fine (h : Ok s) {sfs : Fs} (hin : .reclaimLock sfs node ∈ s.calls)
    (hfree : s.fs_sem sfs = false) : Fine (reclaimLocked s sfs node) := by
  obtain ⟨sin, hm, hf⟩ := h.calls _ hin
  have hn := h.nodes node sin hm
  have hrefs := hn.refs
  have hrecl := hn.reclaims
  have hstay := h.not_leaving hfree node
  subst hf
  have hself (new : List Call) (hnew : .reclaimLock sin.in_fs node ∉ new) :=
    count_goOn_self hin hnew
  let sin' : sfs_inode := { sin with reclaim_count := sin.reclaim_count - 1 }
  have hpos := List.count_pos_iff.2 hin
  unfold reclaimLocked
  rw [node_some hm]
  show Fine (if sin.reclaim_count = 0 then _ else _)
  rw [if_neg (by omega)]
  by_cases hbusy : sin.reclaim_count - 1 ≠ 0 ∨ sin.ref_count ≠ 0
  · -- another reclaim is still to come, so this one has nothing to do
    rw [if_pos hbusy]
    have hother (d : Call) (h1 : d ≠ .reclaimLock sin.in_fs node) :
        (goOn s.calls (.reclaimLock sin.in_fs node) []).count d = s.calls.count d :=
      count_goOn_ne h1 List.not_mem_nil
    have hs := hself [] List.not_mem_nil
    refine h.change hm sin' rfl rfl rfl rfl rfl rfl ?_ ?_
      (fun d hd => Or.inl (List.mem_of_mem_erase hd)) (sem_goOn_out h hin (by simp [Call.inside]))
    · refine ⟨fun _ _ => rfl, fun _ _ => rfl, fun d n hd hne => hother d ?_, fun _ _ _ => rfl⟩
      rintro rfl
      exact hne (Option.some_inj.1 hd).symm
    · refine ⟨?_, ?_, ?_, ?_, ?_⟩
      · exact hrefs.trans (congrArg (s.refs node + ·) (hother _ (by simp)).symm)
      · show sin.reclaim_count - 1 = (goOn s.calls (.reclaimLock sin.in_fs node) []).count
          (.reclaimLock sin.in_fs node) + if sin.ref_count = 0 then 0 else 1
        omega
      · intro hl
        refine absurd ?_ hl
        exact (congrArg₂ (· + ·) (hother _ (by simp)) (hother _ (by simp))).trans hstay
      · intro hd h1 h2
        exact hn.saved hd ((hother _ (by simp)).symm.trans h1) ((hother _ (by simp)).symm.trans h2)
      · intro h0 h1
        rcases hbusy with hb | hb
        · exact absurd h1 hb
        · exact absurd h0 hb
  · -- the last reclaim of an inode without references goes on
    rw [if_neg hbusy]
    obtain ⟨hq0, hr0⟩ := not_or.1 hbusy
    rw [not_not] at hq0 hr0
    rw [if_pos hr0] at hrecl
    have hother (d : Call) (h1 : d ≠ .reclaimLock sin.in_fs node)
        (h2 : d ≠ .reclaimTruncate sin.in_fs node) :
        (goOn s.calls (.reclaimLock sin.in_fs node) [.reclaimTruncate sin.in_fs node]).count d =
          s.calls.count d := count_goOn_ne h1 (by simpa using h2)
    have hs := hself [.reclaimTruncate sin.in_fs node] (by simp)
    have hnew := @count_goOn_new _ _ s.calls (.reclaimLock sin.in_fs node)
      (.reclaimTruncate sin.in_fs node) (by simp)
    have hgoing : Ok (((s.setNode node sin').goOn (.reclaimLock sin.in_fs node)
        [.reclaimTruncate sin.in_fs node]).setSem sin.in_fs true) := by
      refine h.change hm sin' rfl rfl rfl rfl rfl rfl ?_ ?_ ?_ ?_
      · refine ⟨fun _ _ => rfl, fun _ _ => rfl, fun d n hd hne => hother d ?_ ?_,
          fun _ _ _ => rfl⟩
        · rintro rfl
          exact hne (Option.some_inj.1 hd).symm
        · rintro rfl
          exact hne (Option.some_inj.1 hd).symm
      · refine ⟨?_, ?_, fun _ => ⟨hr0, hq0⟩, ?_, ?_⟩
        · exact hrefs.trans (congrArg (s.refs node + ·) (hother _ (by simp) (by simp)).symm)
        · show sin.reclaim_count - 1 = (goOn s.calls (.reclaimLock sin.in_fs node)
            [.reclaimTruncate sin.in_fs node]).count (.reclaimLock sin.in_fs node) +
              if sin.ref_count = 0 then 0 else 1
          rw [if_pos hr0]
          omega
        · intro hd h1 h2
          exact hn.saved hd ((hother _ (by simp) (by simp)).symm.trans h1)
            ((hother _ (by simp) (by simp)).symm.trans h2)
        · intro _ _ h0
          have hz : (goOn s.calls (.reclaimLock sin.in_fs node)
            [.reclaimTruncate sin.in_fs node]).count (.reclaimTruncate sin.in_fs node) = 0 :=
            (Nat.add_eq_zero_iff.1 h0).1
          exact absurd (hnew.symm.trans hz) (Nat.succ_ne_zero _)
      · intro d hd
        rcases mem_goOn hd with hd | hd
        · obtain rfl := List.mem_singleton.1 hd
          exact Or.inr ⟨_, update_self _ _ _, rfl⟩
        · exact Or.inl hd
      · refine sem_goOn h sin.in_fs hin ?_ ?_
        · rw [hfree]
          simp [Call.inside]
        · intro sfs' hne
          have hne' : ¬ sin.in_fs = sfs' := fun he => hne he.symm
          simp [Call.inside, hne']
    by_cases hlinks : sin.din.nlinks = 0
    · rw [if_pos hlinks]
      exact hgoing
    · rw [if_neg hlinks, reclaimFlush_eq]
      exact reclaimFlush_fine hgoing (List.mem_append_left _ (List.mem_singleton.2 rfl))

theorem truncateDone_fine (h : Ok s) {sfs : Fs} (din : Option sfs_disk_inode) (ok : Bool)
    (hin : .reclaimTruncate sfs node ∈ s.calls) : Fine (truncateDone s sfs node din ok) := by
  obtain ⟨sin, hm, -⟩ := h.calls _ hin
  have hchanged : ∃ s' sin', s.changed node din = .ok s' ∧ Ok s' ∧ s'.calls = s.calls ∧
      s'.mem node = some sin' := by
    unfold Sys.changed
    rw [node_some hm]
    cases din with
    | none => exact ⟨s, sin, rfl, h, rfl, hm⟩
    | some din => exact ⟨_, _, rfl, h.marked hm din, rfl, update_self _ _ _⟩
  obtain ⟨s', sin', hx, hok, hcalls, hm'⟩ := hchanged
  rw [← hcalls] at hin
  unfold truncateDone
  simp only [hx, bind, Except.bind]
  cases ok
  · exact failedUnlock_ok hok (Or.inl rfl) hin hm' (by simp)
  · exact reclaimFlush_fine hok hin

theorem reclaimFsyncDone_fine (h : Ok s) {sfs : Fs} (ok : Bool)
    (hin : .reclaimFsync sfs node ∈ s.calls) : Fine (reclaimFsyncDone s sfs node ok) := by
  obtain ⟨sin, hm, hf, hn, hl, hr0, hq0⟩ := h.going (Or.inr rfl) hin
  subst hf
  unfold reclaimFsyncDone written
  simp only [node_some hm, bind, Except.bind]
  cases ok with
  | false => exact failedUnlock_ok (h.marked hm sin.din) (Or.inr rfl) hin (update_self _ _ _) fun _ => rfl
  | true =>
    have hpos := List.count_pos_iff.2 hin
    let disk := update s.disk sin.in_fs (update (s.disk sin.in_fs) sin.ino sin.din)
    have hok : Ok { s with disk := disk } := by
      refine h.change hm sin rfl rfl (update_eq_self_iff.2 hm.symm).symm rfl rfl rfl
        ?_ ⟨hn.refs, hn.reclaims, hn.left, ?_, hn.kept⟩ (fun d hd => Or.inl hd) h.sem
      · refine ⟨fun _ _ => rfl, fun _ _ => rfl, fun _ _ _ _ => rfl, ?_⟩
        intro sfs' ino' hne
        by_cases hs : sfs' = sin.in_fs
        · subst hs
          show update s.disk sin.in_fs _ sin.in_fs ino' = _
          rw [update_self, update_of_ne fun hi => hne ⟨rfl, hi⟩]
        · show update s.disk sin.in_fs _ sfs' ino' = _
          rw [update_of_ne hs]
      · intro _ _ h0
        exact absurd h0 (Nat.pos_iff_ne_zero.1 hpos)
    refine reclaimKill_fine hok (Or.inr rfl) hin hm ?_
    show update s.disk sin.in_fs _ sin.in_fs sin.ino = _
    rw [update_self, update_self]

/-! ## `sfs_fsync` -/

theorem change_fine (h : Ok s) (hr : 0 < s.refs node) (din : sfs_disk_inode) :
    Fine (s.changed node (some din)) := by
  obtain ⟨sin, hm, -⟩ := h.held hr
  unfold Sys.changed
  rw [node_some hm]
  exact h.marked hm din

theorem sfs_fsync_fine (h : Ok s) (hr : 0 < s.refs node) : Fine (sfs_fsync s node) := by
  obtain ⟨sin, hm, hn, hpos⟩ := h.held hr
  have hrefs := hn.refs
  have hstay := hn.staying hpos
  unfold sfs_fsync
  rw [node_some hm]
  show Fine (Except.ok (if sin.dirty = true then _ else _))
  cases sin.dirty with
  | false => exact h
  | true =>
    rw [if_pos rfl]
    have hother (d : Call) (h1 : d ≠ .fsync node) :
        (Call.fsync node :: s.calls).count d = s.calls.count d := List.count_cons_of_ne (Ne.symm h1)
    have hself : (Call.fsync node :: s.calls).count (.fsync node) =
        s.calls.count (.fsync node) + 1 := List.count_cons_self
    refine h.change hm { sin with dirty := false } rfl rfl rfl rfl rfl rfl ?_ ?_ ?_ ?_
    · refine ⟨fun _ hne => update_of_ne hne _ _, fun _ _ => rfl, fun d n hd hne => hother d ?_,
        fun _ _ _ => rfl⟩
      rintro rfl
      exact hne (Option.some_inj.1 hd).symm
    · refine ⟨?_, ?_, ?_, ?_, ?_⟩
      · show sin.ref_count = update s.refs node (s.refs node - 1) node +
          (Call.fsync node :: s.calls).count (.fsync node)
        rw [update_self, hself]
        omega
      · exact hn.reclaims.trans (congrArg (· + _) (hother _ (by simp)).symm)
      · intro hl
        refine absurd ?_ hl
        exact (congrArg₂ (· + ·) (hother _ (by simp)) (hother _ (by simp))).trans hstay
      · intro _ h0
        exact absurd (hself.symm.trans h0) (Nat.succ_ne_zero _)
      · intro h0
        exact absurd h0 (Nat.pos_iff_ne_zero.1 hpos)
    · intro d hd
      rcases List.mem_cons.1 hd with rfl | hd
      · exact Or.inr ⟨_, update_self _ _ _⟩
      · exact Or.inl hd
    · intro sfs
      show (Call.fsync node :: s.calls).countP _ = _
      rw [List.countP_cons_of_neg (by simp [Call.inside])]
      exact h.sem sfs

theorem fsyncDone_fine (h : Ok s) (ok : Bool) (hin : .fsync node ∈ s.calls) :
    Fine (fsyncDone s node ok) := by
  obtain ⟨sin, hm⟩ := h.calls _ hin
  have hn := h.nodes node sin hm
  have hpos := List.count_pos_iff.2 hin
  have hrefs := hn.refs
  have hstay := hn.staying (by omega)
  have hself := @count_goOn_self _ _ s.calls (.fsync node) [] hin List.not_mem_nil
  have hother (d : Call) (h1 : d ≠ .fsync node) :
      (goOn s.calls (.fsync node) []).count d = s.calls.count d := count_goOn_ne h1 List.not_mem_nil
  let dirty := if ok then sin.dirty else true
  let disk := if ok then update s.disk sin.in_fs (update (s.disk sin.in_fs) sin.ino sin.din)
    else s.disk
  have hx : fsyncDone s node ok = .ok
      ((({ s with disk := disk }.setNode node { sin with dirty := dirty }).goOn
        (.fsync node) []).setRefs node (s.refs node + 1)) := by
    unfold fsyncDone written
    simp only [node_some hm, bind, Except.bind]
    cases ok with
    | false => rfl
    | true =>
      have hu : update s.mem node (some sin) = s.mem := update_eq_self_iff.2 hm.symm
      simp only [dirty, disk, if_pos, Sys.setNode]
      rw [hu]
      rfl
  rw [hx]
  refine h.change hm { sin with dirty := dirty } rfl rfl rfl rfl rfl rfl ?_ ?_
    (fun d hd => Or.inl (List.mem_of_mem_erase hd)) (sem_goOn_out h hin (by simp [Call.inside]))
  · refine ⟨fun _ hne => update_of_ne hne _ _, fun _ _ => rfl, fun d n hd hne => hother d ?_, ?_⟩
    · rintro rfl
      exact hne (Option.some_inj.1 hd).symm
    · intro sfs' ino' hne
      show disk sfs' ino' = _
      cases ok with
      | false => rfl
      | true =>
        by_cases hs : sfs' = sin.in_fs
        · subst hs
          simp only [disk, if_pos]
          rw [update_self, update_of_ne fun hi => hne ⟨rfl, hi⟩]
        · simp only [disk, if_pos]
          rw [update_of_ne hs]
  · refine ⟨?_, ?_, ?_, ?_, ?_⟩
    · show sin.ref_count = update s.refs node (s.refs node + 1) node +
        (goOn s.calls (.fsync node) []).count (.fsync node)
      rw [update_self]
      omega
    · exact hn.reclaims.trans (congrArg (· + _) (hother _ (by simp)).symm)
    · intro hl
      refine absurd ?_ hl
      exact (congrArg₂ (· + ·) (hother _ (by simp)) (hother _ (by simp))).trans hstay
    · intro hd _ _
      show disk sin.in_fs sin.ino = sin.din
      cases ok with
      | false => cases hd
      | true =>
        simp only [disk, if_pos]
        rw [update_self, update_self]
    · intro h0
      have h1 : sin.ref_count = 0 := h0
      omega

/-! ## Runs -/

theorem sfs_load_inode_fine (h : Ok s) (sfs : Fs) (ino : Word) :
    Fine (Event.step s (.sfs_load_inode sfs ino)) := by
  refine @Ok.recall s h (.loadLock sfs ino :: s.calls) s.fs_sem ?_ ?_ ?_
  · intro c node hca
    refine List.count_cons_of_ne ?_
    rintro rfl
    cases hca
  · intro c hc
    rcases List.mem_cons.1 hc with rfl | hc
    · exact Or.inr trivial
    · exact Or.inl hc
  · intro sfs'
    rw [List.countP_cons_of_neg (by simp [Call.inside])]
    exact h.sem sfs'

/-- Every step keeps the invariant. -/
theorem step_fine (h : Ok s) (e : Event) (ha : e.Allowed s) : Fine (e.step s) := by
  cases e with
  | sfs_load_inode sfs ino => exact sfs_load_inode_fine h sfs ino
  | loadLocked sfs ino memory => exact loadLocked_fine h memory ha.1 ha.2
  | loadDone sfs ino result => exact loadDone_fine h result ha.1 ha.2
  | inode_ref_inc node => exact inode_ref_inc_fine h ha
  | inode_ref_dec node => exact inode_ref_dec_fine h ha
  | reclaimLocked sfs node => exact reclaimLocked_fine h ha.1 ha.2
  | truncateDone sfs node din ok => exact truncateDone_fine h din ok ha
  | reclaimFsyncDone sfs node ok => exact reclaimFsyncDone_fine h ok ha
  | change node din => exact change_fine h ha.1 din
  | sfs_fsync node => exact sfs_fsync_fine h ha.1
  | fsyncDone node ok => exact fsyncDone_fine h ok ha

/-- Nothing is under way that would destroy the inode. -/
def Settled (s : Sys) (node : Addr) : Prop :=
  ∀ c ∈ s.calls, c.about ≠ some node

/-- After every run: there is at most one inode for a number of a file system, it is in the lists of
its file system until it is destroyed, every reference is to an inode in memory, every inode that was
made is in memory or was destroyed once, and then it had no reference and was saved; an inode without
references that stays is one whose last reclaim failed. No step uses an inode that is gone, and no
assertion on a count fails. -/
theorem inodes_ok (disk : Fs → Word → sfs_disk_inode) (es : List Event)
    (ha : AllAllowed Event.step Event.Allowed (boot disk) es) :
    (∀ s, runSteps Event.step (boot disk) es = .ok s →
      (∀ node node' sin sin', s.mem node = some sin → s.mem node' = some sin' →
        sin.in_fs = sin'.in_fs → sin.ino = sin'.ino → node = node') ∧
      (∀ sfs, (s.inode_list sfs).Nodup ∧
        ∀ node, node ∈ s.inode_list sfs ↔ ∃ sin, s.mem node = some sin ∧ sin.in_fs = sfs) ∧
      (∀ sfs h, (s.hash_list sfs h).Nodup ∧
        ∀ node, node ∈ s.hash_list sfs h ↔
          ∃ sin, s.mem node = some sin ∧ sin.in_fs = sfs ∧ sin_hashfn sin.ino = h) ∧
      (∀ node, 0 < s.refs node → ∃ sin, s.mem node = some sin ∧ s.refs node ≤ sin.ref_count) ∧
      (∀ node, s.log.countP (Obs.isCreated node) =
        s.log.countP (Obs.isDestroyed node) + if (s.mem node).isSome then 1 else 0) ∧
      (∀ node sin disk, .destroyed node sin disk ∈ s.log →
        sin.ref_count = 0 ∧ sin.din = disk) ∧
      ∀ node sin, s.mem node = some sin → sin.ref_count = 0 → Settled s node →
        s.kept node = true) ∧
    ∀ e, runSteps Event.step (boot disk) es = .error e → e = .nlinks := by
  have hstep : ∀ (_ : Unit) s e, Ok s → Event.Allowed s e → Ends Ok (· = .nlinks) (Event.step s e) :=
    fun _ s e h hae => step_fine h e hae
  have hrun := @ends_run _ _ _ _ _ _ (fun u _ _ => u) _ _ hstep () _ _ (boot_ok disk) ha
  refine ⟨fun s hs => ?_, fun e he => hrun.error he⟩
  have h := hrun.ok hs
  refine ⟨h.unique, h.listed, h.hashed, ?_, h.log.once, h.log.clean, ?_⟩
  · intro node hr
    obtain ⟨sin, hm, hn, -⟩ := h.held hr
    have hrefs := hn.refs
    exact ⟨sin, hm, by omega⟩
  · intro node sin hm hr0 hset
    have hn := h.nodes node sin hm
    have hzero (c : Call) (hca : c.about = some node) : s.calls.count c = 0 :=
      List.count_eq_zero_of_not_mem fun hc => hset c hc hca
    have hrecl := hn.reclaims
    rw [if_pos hr0, hzero _ rfl] at hrecl
    refine hn.kept hr0 hrecl ?_
    unfold leaving
    rw [hzero _ rfl, hzero _ rfl]

/-- One process gives its inode up, another one finds it before the first comes to the lock, changes it
and gives it up too. -/
def revivedOnce : List Event :=
  [.sfs_load_inode 0 7#32, .loadLocked 0 7#32 true, .loadDone 0 7#32 (some 5), .inode_ref_dec 5,
    .sfs_load_inode 0 7#32, .loadLocked 0 7#32 true, .reclaimLocked 0 5,
    .change 5 ⟨9, 1, 1, 0, fun _ => 0, 0⟩, .inode_ref_dec 5, .reclaimLocked 0 5,
    .reclaimFsyncDone 0 5 true]

theorem inodes_ok_revivedOnce : ∃ s,
    runSteps Event.step (boot fun _ _ => ⟨0, 1, 1, 0, fun _ => 0, 0⟩) revivedOnce = .ok s ∧
      s.mem 5 = none ∧ s.log.countP (Obs.isCreated 5) =
        s.log.countP (Obs.isDestroyed 5) + if (s.mem 5).isSome then 1 else 0 :=
  ⟨_, rfl, rfl, ((inodes_ok (fun _ _ => ⟨0, 1, 1, 0, fun _ => 0, 0⟩) revivedOnce
    (by decide +kernel)).1 _ rfl).2.2.2.2.1 5⟩

end nehcpu.kernel.reclaim
