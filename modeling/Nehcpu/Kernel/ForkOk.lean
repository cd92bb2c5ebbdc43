-- A fork that fails leaves the kernel as it was, at whatever request the allocator refuses. Only a
-- page for a copy must not be refused: there the fork fails an assertion.
import Nehcpu.Kernel.ForkFiles
import Nehcpu.Kernel.ForkMemory

namespace nehcpu.kernel.fork

open cpu frames Function
open nehcpu.fallible

/-! ## The kernel before and after -/

/-- A kernel with a process that can fork. A page directory stands in the page of its number. -/
structure KernOk (k : Kern) : Prop where
  pages : Settled k.pages
  dirs : ∀ d ∈ k.pages.dirs, d < 2 ^ 20 ∧ k.pages.free (BitVec.ofNat 20 d) = false
  current : k.procs k.current ≠ none
  mm : ∀ {p place}, k.procs k.current = some p → p.mm = some place → ∃ mm,
    k.mms place = some mm ∧ mm.pgdir ∈ k.pages.dirs ∧ ListOk mm ∧ ∀ vma ∈ mm.mmap_list, VmaOk vma
  files : filetable.Ok k.fs
  runs : k.fs.runs k.current
  listed : k.proc_list.length < k.nr_process

/-- Nothing stands where `kmalloc` puts the new structures. -/
structure Unused (k : Kern) (new : Places) : Prop where
  proc : k.procs new.proc = none
  child : new.proc ∉ k.fs.procs
  fs : new.fs ∉ k.fs.tabs

/-- All is as before: the frames, the structures of `kmalloc`, the counts of the inodes, of the
memories and of the frames, the processes with their lists and their pids. -/
structure AsBefore (k k' : Kern) : Prop where
  pages : Restored k.pages k'.pages
  heap : k'.heap = k.heap
  fs : filetable.SameFiles k.fs k'.fs
  mms : k'.mms = k.mms
  procs : k'.procs = k.procs
  current : k'.current = k.current
  proc_list : k'.proc_list = k.proc_list
  hash_list : k'.hash_list = k.hash_list
  nr_process : k'.nr_process = k.nr_process
  statics : k'.statics = k.statics
  run_list : k'.run_list = k.run_list

/-- What `copy_fs` asks for. -/
def fileRequests (clone_flags : Word) : List Request :=
  if clone_flags &&& CLONE_FS != 0#32 then [] else [.object]

/-- What `copy_mm` asks for. -/
def memoryRequests (k : Kern) (clone_flags : Word) : List Request :=
  match ((k.procs k.current).bind proc_struct.mm).bind k.mms with
  | none => []
  | some mm =>
    if clone_flags &&& CLONE_VM != 0#32 then []
    else .object :: .page :: areaRequests k.pages mm.pgdir mm.mmap_list.reverse []

/-- What the whole fork asks for. -/
def forkRequests (k : Kern) (clone_flags : Word) : List Request :=
  if k.nr_process ≥ pids.MAX_PROCESS then []
  else .object :: .stack :: (fileRequests clone_flags ++ memoryRequests k clone_flags)

/-- The first request that the allocator refuses. -/
def refused (A : PageAllocator) (clone_flags : Word) (k : Kern) : Option Request :=
  match serve A (forkRequests k clone_flags) (supply k.pages) with
  | .ok _ => none
  | .error r => some r

/-- The fork returns, with an error if a request is refused, and after an error all is as
before. -/
def FailsCleanly (A : PageAllocator) (new : Places) (clone_flags stack : Word)
    (tf : trap.Trapframe) (k : Kern) : Prop :=
  ∃ ret k', do_fork A new clone_flags stack tf k = some (ret, k') ∧
    (refused A clone_flags k ≠ none → ret < 0) ∧ (ret < 0 → AsBefore k k')

/-! ## What was taken goes back -/

section

variable {s s' s'' : Frames}

theorem restored_trans (h : Restored s s') (h' : Restored s' s'') : Restored s s'' where
  dirs := h'.dirs.trans h.dirs
  pgdirs d hd := (h'.pgdirs d (by rw [h.dirs]; exact hd)).trans (h.pgdirs d hd)
  free := h'.free.trans h.free
  ref := h'.ref.trans h.ref
  mem p hp := (h'.mem p (by rw [h.free]; exact hp)).trans (h.mem p hp)

theorem restored_tick (n : Nat) : Restored s { s with tick := n } :=
  ⟨rfl, fun _ _ => rfl, rfl, rfl, fun _ _ => rfl⟩

/-- A page that was free goes back. -/
theorem restored_free_page (h : Settled s) {page : Page} (hf : s.free page = true)
    (hr : Restored (s.taken page) s') : Restored s (free_page s' page) := by
  refine ⟨hr.dirs, hr.pgdirs, ?_, ?_, ?_⟩
  · show update s'.free page true = s.free
    rw [hr.free]
    show update (update s.free page false) page true = s.free
    rw [update_idem, ← hf, update_eq_self]
  · show update s'.ref page 0 = s.ref
    rw [hr.ref]
    show update s.ref page 0 = s.ref
    rw [← h.free hf, update_eq_self]
  · intro p hp
    refine hr.mem p ?_
    exact (free_taken s page p).2 (Or.inl hp)

/-- The frames with a run of them taken. -/
def takenRun (s : Frames) (base : Page) (n : Nat) : Frames :=
  { s with
    free := fun page => if InRun base n page then false else s.free page
    tick := s.tick + 1 }

theorem restored_free_pages (h : Settled s) {base : Page} {n : Nat}
    (hf : ∀ page, InRun base n page → s.free page = true)
    (hr : Restored (takenRun s base n) s') : Restored s (free_pages s' base n) := by
  refine ⟨hr.dirs, hr.pgdirs, ?_, ?_, ?_⟩
  · funext page
    show (if InRun base n page then true else s'.free page) = s.free page
    split
    · next hin => exact (hf page hin).symm
    · next hin =>
      rw [hr.free]
      exact if_neg hin
  · funext page
    show (if InRun base n page then 0 else s'.ref page) = s.ref page
    split
    · next hin => exact (h.free (hf page hin)).symm
    · rw [hr.ref]
      rfl
  · intro page hp
    refine hr.mem page ?_
    show (if InRun base n page then false else s.free page) = false
    split
    · rfl
    · exact hp

/-- To take frames changes no count. -/
theorem settled_takenRun (h : Settled s) (base : Page) (n : Nat) :
    Settled (takenRun s base n) := by
  refine ⟨h.distinct, ?_, h.user, ?_⟩
  · intro t ht
    obtain ⟨h1, h2, h3⟩ := h.table ht
    refine ⟨h1, ?_, h3⟩
    show (if InRun base n t then false else s.free t) = false
    split
    · rfl
    · exact h2
  · intro page hp
    have hp' : (if InRun base n page then false else s.free page) = true := hp
    split at hp'
    · cases hp'
    · exact h.free hp'

end

/-- The address of a page leads back to it. -/
theorem kva2page_page2kva (page : Page) : kva2page (page2kva page) = page := by
  unfold kva2page page2kva
  rw [BitVec.add_sub_cancel]
  exact BitVec.extractLsb'_append_eq_left

/-! ## The memory -/

section

variable {A : PageAllocator} {k : Kern} {child : Place}

/-- The walk looks at the page tables of the parent only. -/
theorem presentPages_congr {s s' : Frames} {src : Nat} (ht : ∀ i, s'.table src i = s.table src i)
    (hp : ∀ la, s'.pte src la = s.pte src la) (stop : Word) (rounds : Nat) (start : Word) :
    presentPages s' src stop rounds start = presentPages s src stop rounds start := by
  induction rounds generalizing start with
  | zero => rfl
  | succ rounds ih =>
    unfold presentPages
    simp only [ht, hp, ih]

theorem areaRequests_congr {s s' : Frames} {src : Nat} (ht : ∀ i, s'.table src i = s.table src i)
    (hp : ∀ la, s'.pte src la = s.pte src la) (vmas : List Vma) (tables : List Nat) :
    areaRequests s' src vmas tables = areaRequests s src vmas tables := by
  induction vmas generalizing tables with
  | nil => rfl
  | cons vma vmas ih =>
    unfold areaRequests areaPages
    simp only [presentPages_congr ht hp, ih]

/-- What the end of the fork needs of the kernel. -/
structure SameProcs (k k' : Kern) : Prop where
  fs : k'.fs = k.fs
  current : k'.current = k.current
  proc_list : k'.proc_list = k.proc_list
  statics : k'.statics = k.statics
  state : ∀ place, (k'.procs place).map proc_struct.state = (k.procs place).map proc_struct.state

theorem setProc_state (k : Kern) (place : Place) {f : proc_struct → proc_struct}
    (hf : ∀ p, (f p).state = p.state) (place' : Place) :
    ((k.setProc place f).procs place').map proc_struct.state =
      (k.procs place').map proc_struct.state := by
  show (update k.procs place ((k.procs place).map f) place').map proc_struct.state = _
  rw [update_apply]
  split
  · next he =>
    rw [he, Option.map_map]
    congr 1
    funext p
    exact hf p
  · rfl

theorem good_mm_same (k : Kern) (place : Place) (mm : Mm) (child : Place) :
    SameProcs k (good_mm place mm child k) := by
  refine ⟨rfl, rfl, rfl, rfl, ?_⟩
  intro place'
  exact setProc_state _ child (f := fun p => { p with mm := some place, cr3 := some mm.pgdir })
    (fun _ => rfl) place'

/-- A part of the fork ends as its requests do: it goes on with `Q`, or it fails and the pages are
as they were. -/
def Takes (k : Kern) (r : Except Request Supply) (x : Option (Int × Kern)) (Q : Kern → Prop) :
    Prop :=
  match r with
  | .ok u => ∃ k', x = some (0, k') ∧ supply k'.pages = u ∧ Q k'
  | .error .copy => x = none
  | .error _ => ∃ pages, x = some (-E_NO_MEM, { k with pages }) ∧ Restored k.pages pages

/-- The copy at its start. -/
theorem copying_start {s : Frames} {d : Nat} (h : Settled s) (hd : d ∉ s.dirs) :
    frames.Copying s d (frames.setup_pgdir s d) (mm_create d) [] := by
  have htab : ∀ i, (frames.setup_pgdir s d).table d i = none := by
    intro i
    show entryPage (update s.pgdirs d (fun _ => 0#32) d i) = none
    rw [update_self]
    exact entryPage_zero
  refine ⟨Building.start h hd, ?_, ?_⟩
  · intro la hne
    refine absurd ?_ hne
    unfold Frames.pte
    rw [htab]
  · intro la
    rw [htab]
    simp

theorem dup_mmap_duplicates {s : Frames} {d : Nat} {mm : Mm} (h : Settled s) (hd : d ∉ s.dirs)
    (hdir : mm.pgdir ∈ s.dirs) (hlist : ListOk mm) (hareas : ∀ vma ∈ mm.mmap_list, VmaOk vma) :
    Duplicates s d
      (serve A (areaRequests s mm.pgdir mm.mmap_list.reverse []) (supply (frames.setup_pgdir s d)))
      (frames.dup_mmap A.toAllocator (frames.setup_pgdir s d) (mm_create d) mm) := by
  apply dupLoop_obeys h hdir _ _ _ _ (copying_start h hd)
  · intro v hv
    exact hareas v (List.mem_reverse.1 hv)
  · rw [List.pairwise_reverse]
    exact hlist.separated.apart.imp Or.inr
  · intro v _ w hw
    cases hw

/-- What `copy_mm` does with a copy that failed. -/
theorem unwind_mm {s s' : Frames} {page : Page} {mm : Mm} (h : Settled s)
    (hf : s.free page = true) (b : Building (s.taken page) page.toNat s' mm) (k : Kern) :
    ∃ pages, frames.exit_mmap A.toAllocator s' mm = some pages ∧ ∃ pages',
      mm_destroy mm (put_pgdir mm
        { k with pages, heap := k.heap + 1 + mm.mmap_list.length }) =
          some { k with pages := pages' } ∧ Restored s pages' := by
  obtain ⟨pages, he, hr⟩ := b.restored (h.taken page) A.toAllocator
  refine ⟨pages, he, free_page (frames.put_pgdir pages mm) (BitVec.ofNat 20 mm.pgdir), ?_, ?_⟩
  · have hheap : k.heap + 1 + mm.mmap_list.length - (mm.mmap_list.length + 1) = k.heap := by omega
    unfold mm_destroy frames.mm_destroy put_pgdir
    simp only [if_pos b.count, hheap, Option.map_some]
  · have hpage : BitVec.ofNat 20 mm.pgdir = page := by
      rw [b.pgdir, BitVec.ofNat_toNat]
      exact BitVec.setWidth_eq page
    rw [hpage]
    exact restored_free_page h hf hr

theorem copy_mm_takes (hs : Settled k.pages)
    (hdirs : ∀ d ∈ k.pages.dirs, d < 2 ^ 20 ∧ k.pages.free (BitVec.ofNat 20 d) = false)
    (hmm : ∀ {p place}, k.procs k.current = some p → p.mm = some place → ∃ mm,
      k.mms place = some mm ∧ mm.pgdir ∈ k.pages.dirs ∧ ListOk mm ∧
        ∀ vma ∈ mm.mmap_list, VmaOk vma)
    (place : Place) (clone_flags : Word) (child : Place) :
    Takes k (serve A (memoryRequests k clone_flags) (supply k.pages))
      (copy_mm A place clone_flags child k) (SameProcs k) := by
  have hsame : SameProcs k k := ⟨rfl, rfl, rfl, rfl, fun _ => rfl⟩
  unfold copy_mm memoryRequests
  rcases hp : k.procs k.current with _ | p
  · exact ⟨k, rfl, rfl, hsame⟩
  rcases hold : p.mm with _ | old
  · simp only [Option.bind_some, hold]
    exact ⟨k, rfl, rfl, hsame⟩
  obtain ⟨mm, hm, hdir, hlist, hareas⟩ := hmm hp hold
  simp only [Option.bind_some, hold, hm]
  cases hclone : clone_flags &&& CLONE_VM != 0#32 with
  | true => exact ⟨_, rfl, rfl, good_mm_same k old mm child⟩
  | false =>
    simp only [Bool.false_eq_true, if_false]
    unfold kmalloc serve Request.serve supply
    simp only
    cases hmem : A.memory k.pages.tick with
    | false => exact ⟨_, rfl, restored_tick _⟩
    | true =>
      simp only [if_true]
      unfold setup_pgdir alloc_page serve Request.serve
      simp only
      obtain ⟨s1, hs1⟩ : ∃ s1, s1 = ({ k.pages with tick := k.pages.tick + 1 } : Frames) := ⟨_, rfl⟩
      have h1 : Settled s1 := by
        rw [hs1]
        exact hs.tick _
      rcases hpick : A.pick k.pages.free (k.pages.tick + 1) with _ | page
      · exact ⟨_, rfl, restored_tick _⟩
      · have hf : s1.free page = true := by
          rw [hs1]
          exact A.pick_free hpick
        -- the new directory is none of those that are there
        have hd : page.toNat ∉ (s1.taken page).dirs := by
          intro hd
          have hd' : page.toNat ∈ k.pages.dirs := by
            rw [hs1] at hd
            exact hd
          have htaken := (hdirs _ hd').2
          rw [BitVec.ofNat_toNat, BitVec.setWidth_eq, A.pick_free hpick] at htaken
          cases htaken
        have htab : ∀ i, (s1.taken page).table mm.pgdir i = k.pages.table mm.pgdir i := by
          intro i
          rw [hs1]
          rfl
        have hpte : ∀ la, (s1.taken page).pte mm.pgdir la = k.pages.pte mm.pgdir la := by
          intro la
          rw [hs1]
          rfl
        have hreq := areaRequests_congr htab hpte mm.mmap_list.reverse []
        have hdup := dup_mmap_duplicates (A := A) (h1.taken page) hd
          (by rw [hs1]; exact hdir) hlist hareas
        simp only [Option.map_some, ← hreq, ← hs1]
        have hsup : (⟨update k.pages.free page false, k.pages.tick + 1 + 1⟩ : Supply) =
            supply (frames.setup_pgdir (s1.taken page) page.toNat) := by
          rw [hs1]
          rfl
        rw [hsup]
        rcases hr : serve A (areaRequests (s1.taken page) mm.pgdir mm.mmap_list.reverse [])
          (supply (frames.setup_pgdir (s1.taken page) page.toNat)) with r | u
        · rw [hr] at hdup
          cases r with
          | copy =>
            have hnone : frames.dup_mmap A.toAllocator
                (frames.setup_pgdir (s1.taken page) page.toNat) (mm_create page.toNat) mm =
                  none := hdup
            rw [hnone]
            exact rfl
          | object | stack | page =>
            obtain ⟨s2, mm2, he, hb⟩ := hdup
            obtain ⟨pages, hx, pages', hdestroy, hback⟩ := unwind_mm (A := A) h1 hf hb k
            rw [hs1] at hback
            refine ⟨pages', ?_, restored_trans (restored_tick _) hback⟩
            rw [he]
            simp only [hx, hdestroy]
            rfl
        · rw [hr] at hdup
          obtain ⟨s2, mm2, he, rfl, hb⟩ := hdup
          rw [he]
          have hgood := good_mm_same
            { k with pages := s2, heap := k.heap + 1 + mm2.mmap_list.length } place mm2 child
          exact ⟨_, rfl, rfl, hgood.fs, hgood.current, hgood.proc_list, hgood.statics, hgood.state⟩

end

/-! ## The files -/

section

variable {A : PageAllocator} {k k' : Kern} {child : Place}

/-- The child has a table of files, and `put_fs` takes it back. -/
structure GaveFiles (k : Kern) (child : Place) (k' : Kern) : Prop where
  pages : ∃ n, k'.pages = { k.pages with tick := n }
  mms : k'.mms = k.mms
  procs : k'.procs = k.procs
  current : k'.current = k.current
  proc_list : k'.proc_list = k.proc_list
  hash_list : k'.hash_list = k.hash_list
  nr_process : k'.nr_process = k.nr_process
  statics : k'.statics = k.statics
  run_list : k'.run_list = k.run_list
  back : ∀ pages, Restored k'.pages pages →
    ∃ k'', put_fs child { k' with pages } = some k'' ∧ AsBefore k k''

theorem put_fs_eq (child : Place) (k : Kern) : put_fs child k =
    match filetable.giveUp k.current child destroyTurns k.fs with
    | .error _ => none
    | .ok fs => some { k with fs, heap := k.heap - (k.fs.tabs.card - fs.tabs.card) } := rfl

/-- `put_fs` after a `copy_fs` that made `n` tables. -/
theorem put_fs_back {fs1 : filetable.Sys} {n m : Nat}
    (hcard : fs1.tabs.card = k.fs.tabs.card + n)
    (hback : ∃ fs2, filetable.giveUp k.current child destroyTurns fs1 = .ok fs2 ∧
      filetable.SameFiles k.fs fs2) {pages : Frames}
    (hp : Restored { k.pages with tick := m } pages) :
    ∃ k'', put_fs child { k with pages, heap := k.heap + n, fs := fs1 } = some k'' ∧
      AsBefore k k'' := by
  obtain ⟨fs2, hgive, hsame⟩ := hback
  have hput : put_fs child { k with pages, heap := k.heap + n, fs := fs1 } =
      some { k with
        pages, heap := k.heap + n - (fs1.tabs.card - fs2.tabs.card), fs := fs2 } := by
    simp only [put_fs_eq, hgive]
  refine ⟨_, hput, restored_trans (restored_tick m) hp, ?_, hsame, rfl, rfl, rfl, rfl, rfl, rfl,
    rfl, rfl⟩
  show k.heap + n - (fs1.tabs.card - fs2.tabs.card) = k.heap
  rw [hsame.tabs, hcard]
  omega

theorem copy_fs_takes (h : filetable.Ok k.fs) (hr : k.fs.runs k.current)
    (hchild : child ∉ k.fs.procs) {place : Place} (hplace : place ∉ k.fs.tabs)
    (clone_flags : Word) :
    match serve A (fileRequests clone_flags) (supply k.pages) with
    | .ok u => ∃ k', copy_fs A place clone_flags child k = some (0, k') ∧ supply k'.pages = u ∧
        GaveFiles k child k'
    | .error r => r = .object ∧
        ∃ k', copy_fs A place clone_flags child k = some (-E_NO_MEM, k') ∧ AsBefore k k' := by
  unfold copy_fs fileRequests
  cases hclone : clone_flags &&& CLONE_FS != 0#32 with
  | true =>
    obtain ⟨u, -, hu⟩ := h.procs k.current hr.1
    obtain ⟨s1, he, f, htabs, htable, href, hopen⟩ :=
      filetable.copy_fs_shared h hr hchild none hu
    simp only [if_true, Bool.false_eq_true, if_false, true_or, he]
    refine ⟨_, rfl, rfl, ⟨k.pages.tick, rfl⟩, rfl, rfl, rfl, rfl, rfl, rfl, rfl, rfl, ?_⟩
    intro pages hp
    have hgive := filetable.giveUp_shared h hr hchild hu f htabs htable href hopen destroyTurns
    exact put_fs_back (n := 0) (m := k.pages.tick) (by rw [htabs, Nat.add_zero]) hgive hp
  | false =>
    unfold kmalloc serve Request.serve supply
    simp only [Bool.false_eq_true, if_false]
    cases hmem : A.memory k.pages.tick with
    | false =>
      obtain ⟨u, -, hu⟩ := h.procs k.current hr.1
      have he : filetable.copy_fs k.fs k.current child false none =
          .ok (k.fs.ret k.current (-filetable.E_NO_MEM)) := by
        unfold filetable.copy_fs
        rw [hu]
        rfl
      simp only [Bool.false_eq_true, if_false, or_self, he]
      refine ⟨trivial, _, rfl, restored_tick _, rfl, ?_, rfl, rfl, rfl, rfl, rfl, rfl, rfl, rfl⟩
      exact ⟨rfl, fun _ _ => rfl, rfl, fun _ _ => rfl, rfl, rfl, rfl, rfl, rfl⟩
    | true =>
      obtain ⟨s1, he, f, htabs, htable, hcount, hopens⟩ :=
        filetable.copy_fs_own h hr hchild hplace
      simp only [if_true, or_true, he]
      refine ⟨_, rfl, rfl, ⟨k.pages.tick + 1, rfl⟩, rfl, rfl, rfl, rfl, rfl, rfl, rfl, rfl, ?_⟩
      intro pages hp
      have hcard : s1.tabs.card = k.fs.tabs.card + 1 := by
        rw [htabs]
        exact Finset.card_insert_of_notMem hplace
      have hgive := filetable.giveUp_own h hr hchild hplace f htabs htable hcount hopens
        (le_refl destroyTurns)
      exact put_fs_back (m := k.pages.tick + 1) hcard hgive hp

end
/-! ## The ways back -/

/-- The kernel with a child in its place. -/
def withChild (k : Kern) (child : Place) (p : proc_struct) (pages : Frames) : Kern :=
  { k with pages, heap := k.heap + 1, procs := update k.procs child (some p) }

section

variable {A : PageAllocator} {k k' : Kern} {child : Place} {p : proc_struct} {s : Frames}
  {base : Page}

theorem asBefore_refl (k : Kern) : AsBefore k k :=
  ⟨restored_tick k.pages.tick, rfl, ⟨rfl, fun _ _ => rfl, rfl, fun _ _ => rfl, rfl, rfl, rfl, rfl,
    rfl⟩, rfl, rfl, rfl, rfl, rfl, rfl, rfl, rfl⟩

/-- A request that is refused changes nothing. -/
theorem asBefore_tick (k : Kern) (n : Nat) :
    AsBefore k { k with pages := { k.pages with tick := n } } :=
  { asBefore_refl k with pages := restored_tick n }

theorem withChild_setProc (f : proc_struct → proc_struct) :
    (withChild k child p s).setProc child f = withChild k child (f p) s := by
  unfold Kern.setProc withChild
  simp only [update_self, update_idem, Option.map_some]

/-- `alloc_proc` with the parent of the child. -/
theorem alloc_proc_eq (place : Place) (k : Kern) :
    alloc_proc A place k = if A.memory k.pages.tick
      then (true, withChild k place newProc { k.pages with tick := k.pages.tick + 1 })
      else (false, { k with pages := { k.pages with tick := k.pages.tick + 1 } }) := by
  unfold alloc_proc kmalloc
  cases A.memory k.pages.tick with
  | false => rfl
  | true => rfl

theorem setup_kstack_eq :
    setup_kstack A child (withChild k child p s) = match A.pickRun KSTACKPAGE s.free s.tick with
      | none => (false, withChild k child p { s with tick := s.tick + 1 })
      | some base =>
        (true, withChild k child { p with kstack := page2kva base }
          (takenRun s base KSTACKPAGE)) := by
  unfold setup_kstack alloc_pages
  have hpages : (withChild k child p s).pages = s := rfl
  rw [hpages]
  rcases A.pickRun KSTACKPAGE s.free s.tick with _ | base
  · rfl
  · show (true, (withChild k child p (takenRun s base KSTACKPAGE)).setProc child _) = _
    rw [withChild_setProc]

/-- `bad_fork_cleanup_proc` -/
theorem cleanup_proc (hnone : k.procs child = none) (hs : Restored k.pages s)
    (hb : AsBefore (withChild k child p s) k') : AsBefore k (free_proc child k') := by
  refine ⟨restored_trans hs hb.pages, ?_, hb.fs, hb.mms, ?_, hb.current, hb.proc_list,
    hb.hash_list, hb.nr_process, hb.statics, hb.run_list⟩
  · show k'.heap - 1 = k.heap
    rw [hb.heap]
    rfl
  · show update k'.procs child none = k.procs
    rw [hb.procs]
    show update (update k.procs child (some p)) child none = k.procs
    rw [update_idem, ← hnone, update_eq_self]

/-- `bad_fork_cleanup_kstack` -/
theorem cleanup_kstack (hs : Settled s)
    (hf : ∀ page, InRun base KSTACKPAGE page → s.free page = true)
    (hp : p.kstack = page2kva base)
    (hb : AsBefore (withChild k child p (takenRun s base KSTACKPAGE)) k') :
    AsBefore (withChild k child p s) (put_kstack child k') := by
  have hchild : k'.procs child = some p := by
    rw [hb.procs]
    exact update_self _ _ _
  unfold put_kstack
  rw [hchild]
  simp only [hp, kva2page_page2kva]
  exact { hb with pages := restored_free_pages hs hf hb.pages }

end
/-! ## The child starts -/

section

variable {k : Kern} {child : Place}

theorem set_links_state (child : Place) (k : Kern) (place : Place) :
    ((set_links child k).procs place).map proc_struct.state =
      (k.procs place).map proc_struct.state := by
  unfold set_links
  obtain ⟨k1, hk1⟩ : ∃ k1 : Kern, k1 =
      { k with proc_list := child :: k.proc_list, nr_process := k.nr_process + 1 } := ⟨_, rfl⟩
  have h1 : k1.procs = k.procs := by rw [hk1]
  simp only [← hk1]
  generalize ((k.procs child).bind proc_struct.parent) = parent
  generalize (parent.bind k.procs).bind proc_struct.cptr = older
  have h2 := setProc_state k1 child (f := fun p => { p with yptr := none, optr := older })
    (fun _ => rfl) place
  rw [h1] at h2
  generalize k1.setProc child (fun p => { p with yptr := none, optr := older }) = k2 at h2
  -- the older child, if there is one, and the parent
  have h3 : ((older.elim k2 fun place =>
      k2.setProc place fun p => { p with yptr := some child }).procs place).map proc_struct.state =
        (k.procs place).map proc_struct.state := by
    cases older with
    | none => exact h2
    | some place' =>
      exact (setProc_state k2 place' (f := fun p => { p with yptr := some child })
        (fun _ => rfl) place).trans h2
  generalize (older.elim k2 fun place =>
    k2.setProc place fun p => { p with yptr := some child }) = k3 at h3
  cases parent with
  | none => exact h3
  | some place' =>
    exact (setProc_state k3 place' (f := fun p => { p with cptr := some child })
      (fun _ => rfl) place).trans h3

/-- A new process wakes up. -/
theorem wakeup_proc_new (hst : (k.procs child).map proc_struct.state = some .PROC_UNINIT) :
    ∃ k', wakeup_proc child k = some k' := by
  obtain ⟨p, hp, hstate⟩ := Option.map_eq_some_iff.1 hst
  unfold wakeup_proc
  rw [hp]
  simp only [hstate, reduceCtorEq, if_false, ne_eq, not_false_eq_true, if_true]
  split
  · exact ⟨_, rfl⟩
  · exact ⟨_, rfl⟩

theorem startChild_ends (stack : Word) (tf : trap.Trapframe)
    (hst : (k.procs child).map proc_struct.state = some .PROC_UNINIT)
    (hlist : k.proc_list.length < pids.MAX_PROCESS) :
    ∃ ret k', startChild child stack tf k = some (ret, k') ∧ 0 ≤ ret := by
  obtain ⟨fs, hfs⟩ : ∃ fs, (filetable.Event.forkDone k.current child true).step k.fs = .ok fs :=
    ⟨_, rfl⟩
  obtain ⟨k1, hk1⟩ : ∃ k1, k1 = copy_thread child stack tf { k with fs } := ⟨_, rfl⟩
  have h1 : (k1.procs child).map proc_struct.state = some .PROC_UNINIT := by
    rw [hk1, ← hst]
    unfold copy_thread
    exact setProc_state _ child (by intro p; rfl) child
  have hlen : k1.pids.length < pids.MAX_PROCESS := by
    unfold Kern.pids
    rw [List.length_map, hk1]
    exact hlist
  obtain ⟨st, hpid⟩ := @pids.get_pid_ends _ k1.statics hlen _ le_rfl
  have hget : get_pid k1 = some (st.last_pid, { k1 with statics := st }) := by
    unfold get_pid
    rw [hpid]
    rfl
  obtain ⟨k2, hk2⟩ : ∃ k2, k2 = { k1 with statics := st }.setProc child
    fun p => { p with pid := st.last_pid } := ⟨_, rfl⟩
  have h2 : (k2.procs child).map proc_struct.state = some .PROC_UNINIT := by
    rw [hk2, ← h1]
    exact setProc_state { k1 with statics := st } child
      (f := fun p => { p with pid := st.last_pid }) (fun _ => rfl) child
  have h3 : ((set_links child (hash_proc child st.last_pid k2)).procs child).map
      proc_struct.state = some .PROC_UNINIT := by
    rw [set_links_state]
    exact h2
  obtain ⟨k', hw⟩ := wakeup_proc_new h3
  refine ⟨st.last_pid, k', ?_, Int.natCast_nonneg _⟩
  unfold startChild
  rw [hfs]
  simp only [← hk1, hget, Option.bind_eq_bind, Option.bind_some, ← hk2, hw]

end
/-! ## The whole fork -/

/-- `do_fork` behind `copy_fs` -/
def behindFiles (A : PageAllocator) (new : Places) (clone_flags stack : Word) (tf : trap.Trapframe)
    (k : Kern) : Option (Int × Kern) :=
  match copy_mm A new.mm clone_flags new.proc k with
  | none => none
  | some (ret, k) =>
    if ret ≠ 0 then bad_fork_cleanup_fs new.proc k else startChild new.proc stack tf k

/-- `do_fork` behind `setup_kstack` -/
def behindStack (A : PageAllocator) (new : Places) (clone_flags stack : Word) (tf : trap.Trapframe)
    (k : Kern) : Option (Int × Kern) :=
  match copy_fs A new.fs clone_flags new.proc k with
  | none => none
  | some (ret, k) =>
    if ret ≠ 0 then some (bad_fork_cleanup_kstack new.proc k)
    else behindFiles A new clone_flags stack tf k

/-- The rest of a fork ends as its requests do. -/
def Ends (k : Kern) (r : Except Request Supply) (x : Option (Int × Kern)) : Prop :=
  match r with
  | .ok _ => ∃ ret k', x = some (ret, k') ∧ (ret < 0 → AsBefore k k')
  | .error .copy => x = none
  | .error _ => ∃ k', x = some (-E_NO_MEM, k') ∧ AsBefore k k'

section

variable {A : PageAllocator} {k k' : Kern} {new : Places} {p : proc_struct} {m : Nat} {base : Page}
  {clone_flags : Word}

/-- The kernel of a fork with the child and its stack. -/
abbrev withStack (k : Kern) (child : Place) (p : proc_struct) (m : Nat) (base : Page) : Kern :=
  withChild k child p (takenRun { k.pages with tick := m } base KSTACKPAGE)

/-- The child with its stack goes back. -/
theorem cleanup_stack (h : KernOk k) (hu : Unused k new)
    (hf : ∀ page, InRun base KSTACKPAGE page → k.pages.free page = true)
    (hp : p.kstack = page2kva base) (hb : AsBefore (withStack k new.proc p m base) k') :
    AsBefore k (bad_fork_cleanup_kstack new.proc k').2 :=
  cleanup_proc hu.proc (restored_tick m) (cleanup_kstack (h.pages.tick m) hf hp hb)

/-- The memory of the parent is as it was before the fork. -/
theorem memoryRequests_same (clone_flags : Word) (hu : Unused k new) (hc : k.procs k.current ≠ none)
    (g : GaveFiles (withStack k new.proc p m base) new.proc k') :
    k'.procs k'.current = k.procs k.current ∧
      memoryRequests k' clone_flags = memoryRequests k clone_flags := by
  have hprocs : k'.procs k'.current = k.procs k.current := by
    rw [g.procs, g.current]
    refine update_of_ne ?_ _ _
    intro he
    exact hc (he ▸ hu.proc)
  obtain ⟨n, hn⟩ := g.pages
  refine ⟨hprocs, ?_⟩
  unfold memoryRequests
  rw [hprocs, g.mms]
  show (match ((k.procs k.current).bind proc_struct.mm).bind k.mms with
    | none => [] | some mm => _) = _
  rcases ((k.procs k.current).bind proc_struct.mm).bind k.mms with _ | mm
  · rfl
  · have htab : ∀ i, k'.pages.table mm.pgdir i = k.pages.table mm.pgdir i := by
      intro i
      rw [hn]
      rfl
    have hpte : ∀ la, k'.pages.pte mm.pgdir la = k.pages.pte mm.pgdir la := by
      intro la
      rw [hn]
      rfl
    simp only [areaRequests_congr htab hpte]

theorem behindFiles_ends (h : KernOk k) (hu : Unused k new)
    (hroom : k.nr_process < pids.MAX_PROCESS)
    (hf : ∀ page, InRun base KSTACKPAGE page → k.pages.free page = true)
    (hp : p.kstack = page2kva base) (hst : p.state = .PROC_UNINIT)
    (g : GaveFiles (withStack k new.proc p m base) new.proc k') (stack : Word)
    (tf : trap.Trapframe) :
    Ends k (serve A (memoryRequests k clone_flags) (supply k'.pages))
      (behindFiles A new clone_flags stack tf k') := by
  obtain ⟨hcur, hreq⟩ := memoryRequests_same clone_flags hu h.current g
  obtain ⟨n, hn⟩ := g.pages
  have hs : Settled k'.pages := by
    rw [hn]
    exact (settled_takenRun (h.pages.tick m) base KSTACKPAGE).tick n
  have htakes := copy_mm_takes (A := A) hs (by
      intro d hd
      rw [hn] at hd ⊢
      refine ⟨(h.dirs d hd).1, ?_⟩
      show (if InRun base KSTACKPAGE (BitVec.ofNat 20 d) then false else _) = false
      split
      · rfl
      · exact (h.dirs d hd).2) (by
      intro q place hq hplace
      rw [hcur] at hq
      rw [g.mms, hn]
      exact h.mm hq hplace) new.mm clone_flags new.proc
  rw [hreq] at htakes
  unfold behindFiles
  rcases hr : serve A (memoryRequests k clone_flags) (supply k'.pages) with r | u
  · rw [hr] at htakes
    cases r with
    | copy =>
      have hnone : copy_mm A new.mm clone_flags new.proc k' = none := htakes
      rw [hnone]
      exact rfl
    | object | stack | page =>
      obtain ⟨pages, he, hback⟩ := htakes
      obtain ⟨k2, hput, hb⟩ := g.back pages hback
      refine ⟨_, ?_, cleanup_stack h hu hf hp hb⟩
      rw [he]
      show bad_fork_cleanup_fs new.proc { k' with pages } = _
      unfold bad_fork_cleanup_fs
      rw [hput]
      rfl
  · rw [hr] at htakes
    obtain ⟨k4, he, -, hsame⟩ := htakes
    have hstate : (k4.procs new.proc).map proc_struct.state = some .PROC_UNINIT := by
      rw [hsame.state, g.procs]
      show (update k.procs new.proc (some p) new.proc).map proc_struct.state = _
      rw [update_self, Option.map_some, hst]
    have hlist : k4.proc_list.length < pids.MAX_PROCESS := by
      rw [hsame.proc_list, g.proc_list]
      exact h.listed.trans hroom
    obtain ⟨ret, k5, hstart, hpos⟩ := startChild_ends stack tf hstate hlist
    refine ⟨ret, k5, ?_, fun hneg => absurd hpos (not_le.2 hneg)⟩
    rw [he]
    exact hstart

theorem behindStack_ends (h : KernOk k) (hu : Unused k new)
    (hroom : k.nr_process < pids.MAX_PROCESS)
    (hf : ∀ page, InRun base KSTACKPAGE page → k.pages.free page = true)
    (hp : p.kstack = page2kva base) (hst : p.state = .PROC_UNINIT) (stack : Word)
    (tf : trap.Trapframe) :
    let k2 := withStack k new.proc p m base
    Ends k (serve A (fileRequests clone_flags ++ memoryRequests k clone_flags) (supply k2.pages))
      (behindStack A new clone_flags stack tf k2) := by
  intro k2
  have htakes := copy_fs_takes (A := A) (k := k2) h.files h.runs hu.child hu.fs clone_flags
  unfold behindStack
  rw [serve_append]
  rcases hr : serve A (fileRequests clone_flags) (supply k2.pages) with r | u
  · rw [hr] at htakes
    obtain ⟨rfl, k3, he, hb⟩ := htakes
    refine ⟨_, ?_, cleanup_stack h hu hf hp hb⟩
    rw [he]
    rfl
  · rw [hr] at htakes
    obtain ⟨k3, he, rfl, g⟩ := htakes
    rw [he]
    exact behindFiles_ends h hu hroom hf hp hst g stack tf

theorem do_fork_ends (h : KernOk k) (hu : Unused k new) (clone_flags stack : Word)
    (tf : trap.Trapframe) :
    Ends k (serve A (forkRequests k clone_flags) (supply k.pages))
      (do_fork A new clone_flags stack tf k) := by
  unfold do_fork forkRequests
  by_cases hroom : k.nr_process ≥ pids.MAX_PROCESS
  · rw [if_pos hroom, if_pos hroom]
    exact ⟨_, _, rfl, fun _ => asBefore_refl k⟩
  rw [if_neg hroom, if_neg hroom, alloc_proc_eq]
  unfold serve Request.serve
  cases hmem : A.memory k.pages.tick with
  | false =>
    simp only [supply, hmem, Bool.false_eq_true, if_false]
    exact ⟨_, rfl, asBefore_tick k _⟩
  | true =>
    simp only [supply, hmem, if_true, withChild_setProc, setup_kstack_eq]
    unfold serve Request.serve
    rcases hrun : A.pickRun KSTACKPAGE k.pages.free (k.pages.tick + 1) with _ | base
    · simp only [Option.map_none]
      exact ⟨_, rfl, cleanup_proc hu.proc (restored_tick _) (asBefore_refl _)⟩
    · simp only [Option.map_some]
      obtain ⟨q, hq⟩ : ∃ q : proc_struct, q =
          { newProc with parent := some k.current, kstack := page2kva base } := ⟨_, rfl⟩
      have hkstack : q.kstack = page2kva base := by rw [hq]
      have hstate : q.state = .PROC_UNINIT := by rw [hq]; rfl
      have hends : Ends k
          (serve A (fileRequests clone_flags ++ memoryRequests k clone_flags)
            (supply (withStack k new.proc q (k.pages.tick + 1) base).pages))
          (behindStack A new clone_flags stack tf
            (withStack k new.proc q (k.pages.tick + 1) base)) :=
        behindStack_ends h hu (not_le.1 hroom) (A.pickRun_free hrun) hkstack hstate stack tf
      rw [hq] at hends
      exact hends

end
/-! ## When a fork fails cleanly -/

section

variable {A : PageAllocator} {k : Kern} {new : Places}

/-- The fork fails cleanly unless the first refusal is that of a page for a copy. -/
theorem do_fork_cleanly (h : KernOk k) (hu : Unused k new) (clone_flags stack : Word)
    (tf : trap.Trapframe) :
    FailsCleanly A new clone_flags stack tf k ↔ refused A clone_flags k ≠ some .copy := by
  have hends := do_fork_ends (A := A) h hu clone_flags stack tf
  unfold FailsCleanly refused
  rcases hs : serve A (forkRequests k clone_flags) (supply k.pages) with r | u
  · rw [hs] at hends
    cases r with
    | copy =>
      have hnone : do_fork A new clone_flags stack tf k = none := hends
      constructor
      · rintro ⟨ret, k', he, -⟩
        rw [hnone] at he
        cases he
      · intro hcopy
        exact absurd rfl hcopy
    | object | stack | page =>
      obtain ⟨k', he, hb⟩ := hends
      exact ⟨fun _ => nofun, fun _ => ⟨_, k', he, fun _ => by decide, fun _ => hb⟩⟩
  · rw [hs] at hends
    obtain ⟨ret, k', he, hb⟩ := hends
    exact ⟨fun _ => nofun, fun _ => ⟨ret, k', he, fun hr => absurd rfl hr, hb⟩⟩

end

/-- An allocator with a few pages, which refuses its call number `n`. -/
def refusing (n : Nat) : PageAllocator where
  pick free tick := if tick = n then none else
    ([0x80300#20, 0x80301#20, 0x80302#20, 0x80303#20] : List Page).find? free
  pick_free := by
    intro free tick page hp
    split at hp
    · cases hp
    · exact List.find?_some hp
  memory tick := tick ≠ n
  pickRun pages free tick :=
    if tick ≠ n ∧ pages = 2 ∧ free 0x80400#20 ∧ free 0x80401#20 then some 0x80400#20 else none
  pickRun_free := by
    intro pages free tick base hb page hin
    split at hb
    · next h =>
      obtain ⟨-, rfl, h0, h1⟩ := h
      obtain rfl := Option.some_inj.1 hb
      have hlt : (page - 0x80400#20).toNat < 2 := hin
      have hpage : page = 0x80400#20 ∨ page = 0x80401#20 := by bv_omega
      rcases hpage with rfl | rfl
      · exact h0
      · exact h1
    · cases hb

/-- A process with one page in its memory, and no file. -/
def firstParent : Kern where
  pages := firstPage.taken 0#20
  heap := 3
  fs := filetable.boot 0 0
  mms := fun place => if place = 0 then some firstArea else none
  procs := fun place =>
    if place = 0 then
      some { newProc with state := .PROC_RUNNABLE, pid := 1, mm := some 0, cr3 := some 0 }
    else none
  current := 0
  proc_list := [0]
  hash_list := fun _ => []
  nr_process := 2
  statics := ⟨pids.MAX_PID, 1⟩
  run_list := []

theorem firstParent_ok : KernOk firstParent := by
  refine ⟨firstPage_ok.1.taken 0#20, ?_, nofun, ?_, filetable.boot_ok 0 0, ?_, by decide⟩
  · intro d hd
    obtain rfl : d = 0 := Finset.mem_singleton.1 hd
    exact ⟨by decide, taken_self _ _⟩
  · intro p place hp hplace
    obtain rfl := Option.some_inj.1 hp
    obtain rfl := Option.some_inj.1 hplace
    refine ⟨firstArea, rfl, Finset.mem_insert_self 0 ∅, ⟨⟨?_, ?_⟩, rfl, nofun⟩, ?_⟩
    · intro vma hv
      obtain rfl := List.mem_singleton.1 hv
      decide
    · exact List.pairwise_singleton _ _
    · intro vma hv
      obtain rfl := List.mem_singleton.1 hv
      exact ⟨by decide, by decide, by decide⟩
  · exact ⟨Finset.mem_singleton_self 0, nofun⟩

theorem firstParent_unused : Unused firstParent ⟨1, 1, 1⟩ :=
  ⟨rfl, by decide, by decide⟩

/-- The parent makes the system call in its page. -/
def firstCall : trap.Trapframe := ⟨0#32, 0x12#32, 0x20#32, fun _ => 0#32, USERBASE⟩

/-- The page table of the child is refused. -/
theorem do_fork_cleanly_firstParent :
    refused (refusing 9) 0#32 firstParent = some .page ∧
      FailsCleanly (refusing 9) ⟨1, 1, 1⟩ 0#32 0#32 firstCall firstParent := by
  have hr : refused (refusing 9) 0#32 firstParent = some .page := by decide +kernel
  refine ⟨hr, (do_fork_cleanly firstParent_ok firstParent_unused 0#32 0#32 firstCall).2 ?_⟩
  rw [hr]
  nofun

/-- The page after it is refused: that for the copy. -/
theorem do_fork_fails : ¬ ∀ (A : PageAllocator) (k : Kern) (new : Places) (clone_flags stack : Word)
    (tf : trap.Trapframe), KernOk k → Unused k new →
      FailsCleanly A new clone_flags stack tf k := by
  intro h
  obtain ⟨ret, k', he, -⟩ := h (refusing 10) firstParent ⟨1, 1, 1⟩ 0#32 0#32 firstCall
    firstParent_ok firstParent_unused
  have hr : refused (refusing 10) 0#32 firstParent = some .copy := by decide +kernel
  have hends := do_fork_ends (A := refusing 10) firstParent_ok firstParent_unused 0#32 0#32
    firstCall
  unfold refused at hr
  rcases hs : serve (refusing 10) (forkRequests firstParent 0#32) (supply firstParent.pages)
    with r | u
  · rw [hs] at hr hends
    obtain rfl : r = .copy := Option.some_inj.1 hr
    have hnone : do_fork (refusing 10) ⟨1, 1, 1⟩ 0#32 0#32 firstCall firstParent = none := hends
    rw [hnone] at he
    cases he
  · rw [hs] at hr
    cases hr

end nehcpu.kernel.fork
