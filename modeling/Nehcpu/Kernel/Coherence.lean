-- The TLB agrees with the page table of the running process whenever it can run in user
-- mode, whatever the kernel did since boot.
import Nehcpu.Kernel.Areas
import Nehcpu.Lib.Machine

namespace nehcpu.kernel

open cpu machine

/-! ## A TLB that agrees with a page directory -/

structure Coherent (tlb : Tlb) (pd : Pgdir) : Prop where
  distinct : ∀ i j, vpn2 (tlb i) = vpn2 (tlb j) → i = j
  agrees : ∀ i va, UserAddr va → vpn2 (tlb i) = vpn2Of va → EntryAgrees (tlb i) va (pteAt pd va)
  /-- an entry for a pair without a page has gone with the last page -/
  backed : ∀ i va, UserAddr va → vpn2 (tlb i) = vpn2Of va →
    ∃ va', vpn2Of va' = vpn2Of va ∧ pteAt pd va' ≠ 0#32

theorem TlbClean.coherent {tlb : Tlb} (h : TlbClean tlb) (pd : Pgdir) : Coherent tlb pd :=
  ⟨h.distinct, fun i va hva hi => absurd hi (h.noUser i va hva),
    fun i va hva hi => absurd hi (h.noUser i va hva)⟩

/-- With an empty page directory there is no user entry. -/
theorem Coherent.clean {tlb : Tlb} {pd : Pgdir} (h : Coherent tlb pd)
    (hz : ∀ la, pteAt pd la = 0#32) : TlbClean tlb := by
  refine ⟨h.distinct, ?_⟩
  intro i va hva hi
  obtain ⟨va', -, hne⟩ := h.backed i va hva hi
  exact hne (hz va')

theorem Coherent.congr {tlb : Tlb} {pd pd' : Pgdir} (h : Coherent tlb pd)
    (hp : ∀ la, pteAt pd' la = pteAt pd la) : Coherent tlb pd' := by
  refine ⟨h.distinct, ?_, ?_⟩
  · intro i va hva hi
    rw [hp]
    exact h.agrees i va hva hi
  · intro i va hva hi
    obtain ⟨va', hv, hne⟩ := h.backed i va hva hi
    exact ⟨va', hv, by rw [hp]; exact hne⟩

/-- An edit of any page directory keeps the TLB coherent with every one. -/
theorem Coherent.edit {f g : Nat} {vm vm' : Vm} (h : Coherent vm.tlb (vm.pgdirs g))
    (he : Edit f vm vm') : Coherent vm'.tlb (vm'.pgdirs g) := by
  rcases he.flushed with hc | ⟨ht, hp⟩
  · exact hc.coherent _
  · rw [ht]
    by_cases hg : g = f
    · subst hg
      exact h.congr hp
    · rw [he.others g hg]
      exact h

theorem TlbClean.edit {f : Nat} {vm vm' : Vm} (h : TlbClean vm.tlb) (he : Edit f vm vm') :
    TlbClean vm'.tlb := by
  rcases he.flushed with hc | ⟨ht, -⟩
  · exact hc
  · rw [ht]
    exact h

/-- After an edit that leaves no entry the TLB has no user entry. -/
theorem Coherent.clean_of_edit {f : Nat} {vm vm' : Vm} (h : Coherent vm.tlb (vm.pgdirs f))
    (he : Edit f vm vm') (hz : ∀ la, pteAt (vm'.pgdirs f) la = 0#32) : TlbClean vm'.tlb :=
  (h.edit he).clean hz

/-! ## The refill -/

theorem PDX_of_vpn2 {va va' : Word} (h : vpn2Of va = vpn2Of va') : PDX va = PDX va' := by
  have hv := congrArg BitVec.toNat h
  rw [toNat_vpn2Of, toNat_vpn2Of] at hv
  rw [PDX_eq, PDX_eq]
  omega

theorem userAddr_of_vpn2 {va va' : Word} (h : vpn2Of va = vpn2Of va') (hu : UserAddr va') :
    UserAddr va := by
  have hv := congrArg BitVec.toNat h
  rw [toNat_vpn2Of, toNat_vpn2Of] at hv
  have h1 : va'.toNat < 2147483648 := hu
  have h2 : va.toNat < 2147483648 := by omega
  exact h2

/-- A fault on a present page means that no entry is for its pair: an entry for it would be
valid. -/
theorem no_entry_of_fault {tlb : Tlb} {pd : Pgdir} {held_index : BitVec 4} {va : Word}
    {write : Bool} (h : Coherent tlb pd) (hva : UserAddr va)
    (hp : ptep_present (pteAt pd va) = true) (hf : tlbFault tlb held_index va write = true)
    (i : BitVec 4) : vpn2 (tlb i) ≠ vpn2Of va := by
  intro hi
  have hidx : hit_index held_index tlb va = i :=
    hit_index_unique _ _ _ i hi fun j hj => h.distinct j i (hj.trans hi.symm)
  have hV : (vir2phy held_index tlb va).V = true := by
    have ha := (h.agrees i va hva hi).valid
    unfold vir2phy
    simp only [hidx, ha, hp]
  have hmiss : (vir2phy held_index tlb va).tlb_miss = false := by
    have hm : tlb_miss tlb va = false := by
      rw [← Bool.not_eq_true, tlb_miss_iff]
      exact fun hn => hn i hi
    exact hm
  unfold tlbFault is_tlbs is_tlbl_data at hf
  simp only [hV, hmiss] at hf
  cases write <;> simp at hf

theorem Coherent.refill {tlb : Tlb} {pd : Pgdir} {held_index : BitVec 4} {va : Word} {write : Bool}
    {table : PageTable} (h : Coherent tlb pd) (hva : UserAddr va)
    (hp : ptep_present (pteAt pd va) = true) (hf : tlbFault tlb held_index va write = true)
    (ht : pd (PDX va) = some table) (index : BitVec 4) :
    Coherent (tlb.next ⟨true, index, (tlb_refill va table (PTX va)).entry⟩) pd := by
  have hno := no_entry_of_fault h hva hp hf
  have happly (i : BitVec 4) :
      tlb.next ⟨true, index, (tlb_refill va table (PTX va)).entry⟩ i =
        if i = index then (tlb_refill va table (PTX va)).entry else tlb i := by
    rw [Tlb.next_apply]
    simp only [true_and]
  have hpair (va' : Word) (hv : vpn2Of va' = vpn2Of va) : pteAt pd va' = table (PTX va') := by
    unfold pteAt
    rw [PDX_of_vpn2 hv, ht]
  refine ⟨?_, ?_, ?_⟩
  · intro i j hij
    rw [happly, happly] at hij
    by_cases hi : i = index
    · by_cases hj : j = index
      · rw [hi, hj]
      · rw [if_pos hi, if_neg hj, vpn2_refill] at hij
        exact absurd hij.symm (hno j)
    · by_cases hj : j = index
      · rw [if_neg hi, if_pos hj, vpn2_refill] at hij
        exact absurd hij (hno i)
      · rw [if_neg hi, if_neg hj] at hij
        exact h.distinct i j hij
  · intro i va' hva' hi'
    rw [happly] at hi' ⊢
    split at hi'
    · next hi =>
      rw [vpn2_refill] at hi'
      rw [if_pos hi, hpair va' hi'.symm]
      exact entryAgrees_refill table hi'.symm
    · next hi =>
      rw [if_neg hi]
      exact h.agrees i va' hva' hi'
  · intro i va' hva' hi'
    rw [happly] at hi'
    split at hi'
    · rw [vpn2_refill] at hi'
      refine ⟨va, hi', ?_⟩
      intro hz
      rw [hz] at hp
      exact absurd hp (by decide)
    · exact h.backed i va' hva' hi'

/-- The TLB miss handler keeps the TLB coherent with the memory of the process. -/
theorem handle_tlbmiss_spec {a : FaultPages} {vm : Vm} {mm : Mm} {badaddr : Word}
    {write in_kernel : Bool} {held_index index : BitVec 4} (hcur : vm.current_pgdir = mm.pgdir)
    (hok : MmOk (vm.pgdirs mm.pgdir) mm) (h : Coherent vm.tlb (vm.pgdirs mm.pgdir))
    (hf : tlbFault vm.tlb held_index badaddr write = true) {vm' : Vm} {mm' : Mm} {ok : Bool}
    (hr : handle_tlbmiss a vm mm badaddr write in_kernel index = (vm', mm', ok)) :
    mm'.pgdir = mm.pgdir ∧ mm'.mm_count = mm.mm_count ∧
      (∀ g, g ≠ mm.pgdir → vm'.pgdirs g = vm.pgdirs g) ∧ vm'.current_pgdir = vm.current_pgdir ∧
      vm'.taken = vm.taken ∧ MmOk (vm'.pgdirs mm.pgdir) mm' ∧
      Coherent vm'.tlb (vm'.pgdirs mm.pgdir) := by
  have hfault (code : Nat) (hd : do_pgfault a vm mm code badaddr = (vm', mm', ok)) :
      mm'.pgdir = mm.pgdir ∧ mm'.mm_count = mm.mm_count ∧
        (∀ g, g ≠ mm.pgdir → vm'.pgdirs g = vm.pgdirs g) ∧ vm'.current_pgdir = vm.current_pgdir ∧
        vm'.taken = vm.taken ∧ MmOk (vm'.pgdirs mm.pgdir) mm' ∧
        Coherent vm'.tlb (vm'.pgdirs mm.pgdir) := by
    obtain ⟨hp, hc, he, hm⟩ := @do_pgfault_spec a vm mm code badaddr hok
    rw [hd] at hp hc he hm
    exact ⟨hp, hc, he.others, he.current, he.taken, hm, h.edit he⟩
  unfold handle_tlbmiss at hr
  rw [hcur] at hr
  split at hr
  · exact hfault _ hr
  · next table ht =>
    have hpte : pteAt (vm.pgdirs mm.pgdir) badaddr = table (PTX badaddr) := by
      unfold pteAt
      rw [ht]
    simp only at hr
    split at hr
    · exact hfault _ hr
    · next hz =>
      rw [← hpte] at hz
      split at hr
      · rw [Prod.mk.injEq, Prod.mk.injEq] at hr
        obtain ⟨rfl, rfl, -⟩ := hr
        exact ⟨rfl, rfl, fun _ _ => rfl, rfl, rfl, hok, h⟩
      · rw [Prod.mk.injEq, Prod.mk.injEq] at hr
        obtain ⟨rfl, rfl, -⟩ := hr
        refine ⟨rfl, rfl, fun _ _ => rfl, hcur.symm, rfl, hok, ?_⟩
        exact h.refill (hok.userAddr hz) (hok.ptes badaddr hz) hf ht index

/-! ## The end of a memory -/

/-- `do_execve` and `do_exit` leave no user entry behind. -/
theorem leave_mm_spec {vm vm' : Vm} {boot_pgdir : Nat} {mm : Mm}
    (h : leave_mm vm boot_pgdir mm = some vm') (hcount : mm.mm_count = 1)
    (hok : MmOk (vm.pgdirs mm.pgdir) mm) (hc : Coherent vm.tlb (vm.pgdirs mm.pgdir)) :
    (∀ g, g ≠ mm.pgdir → vm'.pgdirs g = vm.pgdirs g) ∧
      (∀ g, g ≠ mm.pgdir → vm'.taken g = vm.taken g) ∧ TlbClean vm'.tlb := by
  unfold leave_mm at h
  have hzero : mm.mm_count - 1 = 0 := by rw [hcount]
  simp only [hzero, ↓reduceIte] at h
  obtain ⟨vm1, hx, rfl⟩ := Option.map_eq_some_iff.1 h
  have hok' : MmOk ((lcr3 vm boot_pgdir).pgdirs mm.pgdir) { mm with mm_count := 0 } :=
    hok.congr rfl rfl
  obtain ⟨he, hz⟩ := exit_mmap_spec hx hok'
  have hclean : TlbClean vm1.tlb := @Coherent.clean_of_edit _ (lcr3 vm boot_pgdir) _ hc he hz
  refine ⟨he.others, ?_, hclean⟩
  intro g hg
  unfold put_pgdir
  simp only [if_neg hg]
  rw [he.taken]
  rfl

/-! ## The kernel -/

/-- The process holds the memory, as its own or while it loads a program into it. -/
def Proc.Owns (p : Proc) (mm : Mm) : Prop := p.mm = some mm ∨ p.loading = some mm

/-- A memory has one user, whose `cr3` points to it. -/
structure ProcOk (p : Proc) : Prop where
  count : ∀ mm, p.mm = some mm → mm.mm_count = 1
  cr3 : ∀ mm, p.mm = some mm → p.cr3 = mm.pgdir
  loading : ∀ mm, p.loading = some mm → mm.mm_count = 0 ∧ p.mm = none

/-- What holds of the TLB while a process runs. -/
def Running (vm : Vm) (p : Proc) : Prop :=
  match p.mm with
  | some mm => vm.current_pgdir = mm.pgdir ∧ Coherent vm.tlb (vm.pgdirs mm.pgdir)
  | none => TlbClean vm.tlb

/-- The invariant of the kernel. -/
structure Inv (k : Kernel) : Prop where
  boot : k.vm.pgdirs k.boot_pgdir = Pgdir.empty
  bootTaken : k.vm.taken k.boot_pgdir = true
  procs : ∀ pid p, k.procs pid = some p → ProcOk p
  areas : ∀ pid p mm, k.procs pid = some p → p.Owns mm → MmOk (k.vm.pgdirs mm.pgdir) mm
  taken : ∀ pid p mm, k.procs pid = some p → p.Owns mm →
    k.vm.taken mm.pgdir = true ∧ mm.pgdir ≠ k.boot_pgdir
  owner : ∀ pid p mm pid' p' mm', k.procs pid = some p → p.Owns mm → k.procs pid' = some p' →
    p'.Owns mm' → mm.pgdir = mm'.pgdir → pid = pid'
  running : ∀ p, k.procs k.current = some p → Running k.vm p

/-- Directories that an update leaves alone. -/
def Untouched (vm vm' : Vm) (f : Nat) : Prop :=
  vm'.pgdirs f = vm.pgdirs f ∧ vm'.taken f = vm.taken f

/-- One process and its own directory change. -/
theorem Inv.put {k : Kernel} (h : Inv k) (vm' : Vm) {pid : Nat} {p' : Proc}
    (hother : ∀ pid' q mm, pid' ≠ pid → k.procs pid' = some q → q.Owns mm →
      Untouched k.vm vm' mm.pgdir ∧ ∀ mm', p'.Owns mm' → mm'.pgdir ≠ mm.pgdir)
    (hboot : Untouched k.vm vm' k.boot_pgdir) (hp : ProcOk p')
    (howns : ∀ mm, p'.Owns mm → MmOk (vm'.pgdirs mm.pgdir) mm ∧ vm'.taken mm.pgdir = true ∧
      mm.pgdir ≠ k.boot_pgdir)
    (hrun : ∀ q, (if k.current = pid then some p' else k.procs k.current) = some q →
      Running vm' q) :
    Inv ({ k with vm := vm' }.setProc pid (some p')) := by
  have hprocs (i : Nat) : ({ k with vm := vm' }.setProc pid (some p')).procs i =
      if i = pid then some p' else k.procs i := rfl
  refine ⟨hboot.1.trans h.boot, hboot.2.trans h.bootTaken, ?_, ?_, ?_, ?_, ?_⟩
  · intro i q hq
    rw [hprocs] at hq
    split at hq
    · obtain rfl := Option.some_inj.1 hq
      exact hp
    · exact h.procs i q hq
  · intro i q mm hq ho
    rw [hprocs] at hq
    split at hq
    · obtain rfl := Option.some_inj.1 hq
      exact (howns mm ho).1
    · next hi =>
      have hu := (hother i q mm hi hq ho).1.1
      have hm := h.areas i q mm hq ho
      rw [← hu] at hm
      exact hm
  · intro i q mm hq ho
    rw [hprocs] at hq
    split at hq
    · obtain rfl := Option.some_inj.1 hq
      exact (howns mm ho).2
    · next hi =>
      have hu := (hother i q mm hi hq ho).1.2
      obtain ⟨ht, hb⟩ := h.taken i q mm hq ho
      exact ⟨hu.trans ht, hb⟩
  · intro i q mm j r mm' hq ho hr ho' he
    rw [hprocs] at hq hr
    split at hq
    · next hi =>
      split at hr
      · next hj => rw [hi, hj]
      · next hj =>
        obtain rfl := Option.some_inj.1 hq
        exact absurd he ((hother j r mm' hj hr ho').2 mm ho)
    · next hi =>
      split at hr
      · obtain rfl := Option.some_inj.1 hr
        exact absurd he.symm ((hother i q mm hi hq ho).2 mm' ho')
      · exact h.owner i q mm j r mm' hq ho hr ho' he
  · exact hrun

/-- The running process changes, and with it only a directory of its own. -/
theorem Inv.put_own {k : Kernel} (h : Inv k) (vm' : Vm) {p p' : Proc} {mm : Mm}
    (hcur : k.procs k.current = some p) (hown : p.Owns mm)
    (hpg : ∀ g, g ≠ mm.pgdir → vm'.pgdirs g = k.vm.pgdirs g)
    (htk : ∀ g, g ≠ mm.pgdir → vm'.taken g = k.vm.taken g) (hp : ProcOk p')
    (howns : ∀ mm', p'.Owns mm' → mm'.pgdir = mm.pgdir ∧ MmOk (vm'.pgdirs mm.pgdir) mm' ∧
      vm'.taken mm.pgdir = true)
    (hrun : Running vm' p') : Inv ({ k with vm := vm' }.setProc k.current (some p')) := by
  have hb := (h.taken _ p mm hcur hown).2
  have huntouched (f : Nat) (hf : f ≠ mm.pgdir) : Untouched k.vm vm' f := ⟨hpg f hf, htk f hf⟩
  refine h.put _ ?_ (huntouched _ hb.symm) hp ?_ ?_
  · intro pid' q mm2 hpid hq ho
    have hne : mm2.pgdir ≠ mm.pgdir := fun he =>
      hpid (h.owner pid' q mm2 _ p mm hq ho hcur hown he)
    refine ⟨huntouched _ hne, ?_⟩
    intro mm' ho'
    rw [(howns mm' ho').1]
    exact hne.symm
  · intro mm' ho'
    obtain ⟨he, hm, ht⟩ := howns mm' ho'
    rw [he]
    exact ⟨hm, ht, hb⟩
  · intro q hq
    rw [if_pos rfl] at hq
    obtain rfl := Option.some_inj.1 hq
    exact hrun

theorem Kernel.setProc_self {k : Kernel} {pid : Nat} {p : Proc} (h : k.procs pid = some p) :
    k.setProc pid (some p) = k := by
  have hp : (fun i => if i = pid then some p else k.procs i) = k.procs := by
    funext i
    split
    · next hi => rw [hi, h]
    · rfl
  unfold Kernel.setProc
  rw [hp]

theorem Kernel.setProc_setProc (k : Kernel) (pid : Nat) (p q : Option Proc) :
    (k.setProc pid p).setProc pid q = k.setProc pid q := by
  unfold Kernel.setProc
  congr 1
  funext i
  simp only
  split
  · rfl
  · rfl

/-- The memory of the running process is edited. -/
theorem Inv.edit_own {k : Kernel} (h : Inv k) {p : Proc} {mm : Mm} {vm' : Vm}
    (hcur : k.procs k.current = some p) (hown : p.Owns mm) (he : Edit mm.pgdir k.vm vm')
    (hok : ∀ mm', p.Owns mm' → MmOk (k.vm.pgdirs mm'.pgdir) mm' → mm'.pgdir = mm.pgdir →
      MmOk (vm'.pgdirs mm.pgdir) mm') :
    Inv { k with vm := vm' } := by
  have hpk := h.procs _ p hcur
  have heq : ∀ mm', p.Owns mm' → mm'.pgdir = mm.pgdir := by
    intro mm' ho
    rcases ho with ho | ho <;> rcases hown with hown | hown
    · rw [Option.some_inj.1 (ho.symm.trans hown)]
    · rw [(hpk.loading mm hown).2] at ho
      cases ho
    · rw [(hpk.loading mm' ho).2] at hown
      cases hown
    · rw [Option.some_inj.1 (ho.symm.trans hown)]
  have hrun : Running vm' p := by
    have hr := h.running p hcur
    unfold Running at hr ⊢
    rcases hmm : p.mm with _ | mm1
    · rw [hmm] at hr
      exact TlbClean.edit hr he
    · rw [hmm] at hr
      exact ⟨he.current.trans hr.1, hr.2.edit he⟩
  have hres := h.put_own _ hcur hown he.others (fun g _ => by rw [he.taken]) hpk
    (fun mm' ho => ⟨heq mm' ho, hok mm' ho (h.areas _ p mm' hcur ho) (heq mm' ho),
      by rw [he.taken]; exact (h.taken _ p mm hcur hown).1⟩) hrun
  rw [Kernel.setProc_self (k := { k with vm := vm' }) hcur] at hres
  exact hres

/-! ## The steps -/

theorem exit_setProc (k : Kernel) (p : Proc) (q : Option Proc) :
    (k.setProc k.current q).exit p = k.exit p := by
  unfold Kernel.exit
  have hs (vm : Vm) (r : Option Proc) :
      ({ k.setProc k.current q with vm := vm }).setProc k.current r =
        { k with vm := vm }.setProc k.current r := by
    exact Kernel.setProc_setProc { k with vm := vm } k.current q r
  rcases p.mm with _ | mm
  · exact congrArg some (hs k.vm _)
  · simp only
    congr 1
    funext vm
    exact hs vm _

/-- `do_exit` -/
theorem exit_inv {k k' : Kernel} {p : Proc} (h : Inv k) (hcur : k.procs k.current = some p)
    (hload : p.loading = none) (hx : k.exit p = some k') : Inv k' := by
  have hpk := h.procs _ p hcur
  have hr := h.running p hcur
  unfold Running at hr
  -- the process is left without a memory
  have hnone : ∀ mm', ¬ { p with mm := none, zombie := true }.Owns mm' := by
    rintro mm' (ho | ho)
    · cases ho
    · rw [hload] at ho
      cases ho
  have hpk' : ProcOk { p with mm := none, zombie := true } := by
    refine ⟨fun mm' ho => ?_, fun mm' ho => ?_, fun mm' ho => ?_⟩
    · cases ho
    · cases ho
    · exact ⟨(hpk.loading mm' ho).1, rfl⟩
  unfold Kernel.exit at hx
  rcases hmm : p.mm with _ | mm
  · rw [hmm] at hx hr
    obtain rfl := Option.some_inj.1 hx
    refine Inv.put h _ ?_ ⟨rfl, rfl⟩ hpk' (fun mm' ho => absurd ho (hnone mm')) ?_
    · intro pid' q mm2 _ _ _
      exact ⟨⟨rfl, rfl⟩, fun mm' ho => absurd ho (hnone mm')⟩
    · intro q hq
      rw [if_pos rfl] at hq
      obtain rfl := Option.some_inj.1 hq
      exact hr
  · rw [hmm] at hx hr
    obtain ⟨vm', hv, rfl⟩ := Option.map_eq_some_iff.1 hx
    have hown : p.Owns mm := Or.inl hmm
    obtain ⟨hpg, htk, hclean⟩ :=
      leave_mm_spec hv (hpk.count mm hmm) (h.areas _ p mm hcur hown) hr.2
    exact h.put_own _ hcur hown hpg htk hpk' (fun mm' ho => absurd ho (hnone mm')) hclean

/-- `do_execve` up to `load_icode` -/
theorem execve_inv {k k' : Kernel} {p : Proc} {mm : Mm} (h : Inv k)
    (hcur : k.procs k.current = some p) (hload : p.loading = none) (hmm : p.mm = some mm)
    (hx : (leave_mm k.vm k.boot_pgdir mm).map (fun vm =>
      { k with vm := vm }.setProc k.current (some { p with mm := none })) = some k') : Inv k' := by
  have hpk := h.procs _ p hcur
  have hr := h.running p hcur
  unfold Running at hr
  rw [hmm] at hr
  obtain ⟨vm', hv, rfl⟩ := Option.map_eq_some_iff.1 hx
  have hown : p.Owns mm := Or.inl hmm
  obtain ⟨hpg, htk, hclean⟩ :=
    leave_mm_spec hv (hpk.count mm hmm) (h.areas _ p mm hcur hown) hr.2
  have hnone : ∀ mm', ¬ { p with mm := none }.Owns mm' := by
    rintro mm' (ho | ho)
    · cases ho
    · rw [hload] at ho
      cases ho
  refine h.put_own _ hcur hown hpg htk ?_ (fun mm' ho => absurd ho (hnone mm')) hclean
  refine ⟨fun mm' ho => ?_, fun mm' ho => ?_, fun mm' ho => ?_⟩
  · cases ho
  · cases ho
  · exact ⟨(hpk.loading mm' ho).1, rfl⟩

/-- A page that is free is nobody's directory. -/
theorem Inv.free {k : Kernel} (h : Inv k) {f : Nat} (hf : k.vm.taken f = false) :
    f ≠ k.boot_pgdir ∧ ∀ pid p mm, k.procs pid = some p → p.Owns mm → mm.pgdir ≠ f := by
  constructor
  · rintro rfl
    rw [h.bootTaken] at hf
    cases hf
  · rintro pid p mm hp ho rfl
    rw [(h.taken pid p mm hp ho).1] at hf
    cases hf

theorem setup_pgdir_spec (vm : Vm) (boot_pgdir f : Nat) :
    (setup_pgdir vm boot_pgdir f).pgdirs f = vm.pgdirs boot_pgdir ∧
      (setup_pgdir vm boot_pgdir f).taken f = true ∧
      (setup_pgdir vm boot_pgdir f).tlb = vm.tlb ∧
      (setup_pgdir vm boot_pgdir f).current_pgdir = vm.current_pgdir ∧
      ∀ g, g ≠ f → Untouched vm (setup_pgdir vm boot_pgdir f) g := by
  unfold setup_pgdir
  refine ⟨if_pos rfl, if_pos rfl, rfl, rfl, ?_⟩
  intro g hg
  exact ⟨if_neg hg, if_neg hg⟩

/-- The refusal and the two ends of a TLB miss. -/
theorem tlbmiss_inv {k k' : Kernel} {p : Proc} {mm : Mm} (h : Inv k)
    (hcur : k.procs k.current = some p) (hload : p.loading = none) (hmm : p.mm = some mm)
    {badaddr : Word} {write in_kernel : Bool} {held_index index : BitVec 4} {a : FaultPages}
    (hx : k.userStep p mm (.tlbmiss badaddr write in_kernel held_index index a) = some k') :
    Inv k' := by
  have hpk := h.procs _ p hcur
  have hr := h.running p hcur
  unfold Running at hr
  rw [hmm] at hr
  have hown : p.Owns mm := Or.inl hmm
  unfold Kernel.userStep at hx
  simp only at hx
  split at hx
  · next hf =>
    obtain ⟨vm', mm', ok, hres⟩ : ∃ vm' mm' ok,
        handle_tlbmiss a k.vm mm badaddr write in_kernel index = (vm', mm', ok) := ⟨_, _, _, rfl⟩
    obtain ⟨hp, hc, hpg, hcp, htk, hok, hcoh⟩ :=
      handle_tlbmiss_spec hr.1 (h.areas _ p mm hcur hown) hr.2 hf hres
    have hk1 : Inv ({ k with vm := vm' }.setProc k.current (some { p with mm := some mm' })) := by
      refine h.put_own _ hcur hown hpg (fun g _ => by rw [htk]) ?_ ?_ ?_
      · refine ⟨fun mm2 ho => ?_, fun mm2 ho => ?_, fun mm2 ho => ?_⟩
        · obtain rfl := Option.some_inj.1 ho
          rw [hc]
          exact hpk.count mm hmm
        · obtain rfl := Option.some_inj.1 ho
          rw [hp]
          exact hpk.cr3 mm hmm
        · rw [hload] at ho
          cases ho
      · rintro mm2 (ho | ho)
        · obtain rfl := Option.some_inj.1 ho
          exact ⟨hp, hok, by rw [htk]; exact (h.taken _ p mm hcur hown).1⟩
        · rw [hload] at ho
          cases ho
      · have hcur' : vm'.current_pgdir = mm'.pgdir := by rw [hcp, hr.1, hp]
        have hcoh' : Coherent vm'.tlb (vm'.pgdirs mm'.pgdir) := by
          rw [hp]
          exact hcoh
        exact ⟨hcur', hcoh'⟩
    rw [hres] at hx
    simp only at hx
    split at hx
    · obtain rfl := Option.some_inj.1 hx
      exact hk1
    · split at hx
      · cases hx
      · have hcur1 : ({ k with vm := vm' }.setProc k.current (some { p with mm := some mm' })).procs
            k.current = some { p with mm := some mm' } := if_pos rfl
        refine exit_inv hk1 hcur1 hload ?_
        rw [exit_setProc { k with vm := vm' }]
        exact hx
  · cases hx

/-- A fresh directory that is copied from `boot_pgdir` is empty. -/
theorem mmOk_setup {k : Kernel} (h : Inv k) (f : Nat) :
    MmOk ((setup_pgdir k.vm k.boot_pgdir f).pgdirs f) (mm_create f) := by
  rw [(setup_pgdir_spec k.vm k.boot_pgdir f).1, h.boot]
  exact MmOk.create f

/-- `sys_fork`: the copy goes to a directory of its own, and the flushes on the way leave the
TLB coherent with the parent. -/
theorem fork_inv {k k' : Kernel} {p : Proc} {mm : Mm} (h : Inv k)
    (hcur : k.procs k.current = some p) (hmm : p.mm = some mm) {child f : Nat} {a : CopyPages}
    (hx : k.userStep p mm (.do_fork child f a) = some k') : Inv k' := by
  have hr := h.running p hcur
  unfold Running at hr
  rw [hmm] at hr
  unfold Kernel.userStep at hx
  simp only at hx
  split at hx
  · next hguard =>
    obtain ⟨hchild, hfree⟩ := hguard
    obtain ⟨hfb, hfo⟩ := h.free hfree
    obtain ⟨-, htf, htlb, hcp, hsame⟩ := setup_pgdir_spec k.vm k.boot_pgdir f
    have hvmas : ∀ vma ∈ mm.mmap_list.reverse, VmaOk vma := by
      intro vma hv
      exact (h.areas _ p mm hcur (Or.inl hmm)).areas vma (List.mem_reverse.1 hv)
    have hne : k.current ≠ child := by
      intro he
      rw [he, hchild] at hcur
      cases hcur
    -- what any edit of the new directory keeps
    have hkeep (vm' : Vm) (he : Edit f (setup_pgdir k.vm k.boot_pgdir f) vm') :
        (∀ g, g ≠ f → Untouched k.vm vm' g) ∧ vm'.taken f = true ∧ Running vm' p := by
      have hcoh : Coherent (setup_pgdir k.vm k.boot_pgdir f).tlb
          ((setup_pgdir k.vm k.boot_pgdir f).pgdirs mm.pgdir) := by
        rw [htlb, (hsame _ (hfo _ p mm hcur (Or.inl hmm))).1]
        exact hr.2
      refine ⟨?_, by rw [he.taken]; exact htf, ?_⟩
      · intro g hg
        exact ⟨(he.others g hg).trans (hsame g hg).1, by rw [he.taken]; exact (hsame g hg).2⟩
      · unfold Running
        rw [hmm]
        exact ⟨he.current.trans (hcp.trans hr.1), hcoh.edit he⟩
    split at hx
    · cases hx
    · next vm1 new hd =>
      -- the child gets the copy
      obtain ⟨hnp, hnc, he, hok⟩ := dupLoop_spec _ _ _ _ _ _ hd hvmas (mmOk_setup h f)
      obtain ⟨huntouched, htaken, hrunning⟩ := hkeep vm1 he
      obtain rfl := Option.some_inj.1 hx
      have hnp' : new.pgdir = f := hnp
      refine h.put _ ?_ (huntouched _ hfb.symm) ?_ ?_ ?_
      · intro pid' q mm2 _ hq ho
        have hf2 := hfo pid' q mm2 hq ho
        refine ⟨huntouched _ hf2, ?_⟩
        rintro mm3 (ho3 | ho3)
        · obtain rfl := Option.some_inj.1 ho3
          exact fun he2 => hf2 (he2.symm.trans hnp')
        · cases ho3
      · refine ⟨fun mm3 ho3 => ?_, fun mm3 ho3 => ?_, fun mm3 ho3 => ?_⟩
        · obtain rfl := Option.some_inj.1 ho3
          exact congrArg (· + 1) hnc
        · obtain rfl := Option.some_inj.1 ho3
          rfl
        · cases ho3
      · rintro mm3 (ho3 | ho3)
        · obtain rfl := Option.some_inj.1 ho3
          have hok' : MmOk (vm1.pgdirs new.pgdir) { new with mm_count := new.mm_count + 1 } := by
            rw [hnp']
            exact MmOk.congr hok rfl rfl
          exact ⟨hok', by rw [hnp']; exact htaken, by rw [hnp']; exact hfb⟩
        · cases ho3
      · intro q hq
        rw [if_neg hne, hcur] at hq
        obtain rfl := Option.some_inj.1 hq
        exact hrunning
    · next vm1 new hd =>
      -- no memory: the part that was copied goes again
      obtain ⟨hnp, -, he, hok⟩ := dupLoop_spec _ _ _ _ _ _ hd hvmas (mmOk_setup h f)
      obtain ⟨vm2, hm, rfl⟩ := Option.map_eq_some_iff.1 hx
      have hnp' : new.pgdir = f := hnp
      rw [← hnp] at hok
      obtain ⟨he2, -⟩ := exit_mmap_spec hm hok
      rw [hnp'] at he2
      obtain ⟨huntouched, -, hrunning⟩ := hkeep vm2 (he.trans he2)
      have hput : ∀ g, g ≠ f → Untouched k.vm (put_pgdir vm2 new) g := by
        intro g hg
        refine ⟨(huntouched g hg).1, ?_⟩
        unfold put_pgdir
        simp only [hnp', if_neg hg]
        exact (huntouched g hg).2
      have hown : p.Owns mm := Or.inl hmm
      have hpf := hfo _ p mm hcur hown
      have hres := @Inv.put _ h (put_pgdir vm2 new) k.current p
        (fun pid' q mm2 hpid hq ho =>
          ⟨hput _ (hfo pid' q mm2 hq ho), fun mm3 ho3 he3 =>
            hpid (h.owner pid' q mm2 _ p mm3 hq ho hcur ho3 he3.symm)⟩)
        (hput _ hfb.symm) (h.procs _ p hcur)
        (fun mm3 ho3 => by
          have hu := hput _ (hfo _ p mm3 hcur ho3)
          obtain ⟨ht, hb⟩ := h.taken _ p mm3 hcur ho3
          rw [hu.1, hu.2]
          exact ⟨h.areas _ p mm3 hcur ho3, ht, hb⟩)
        (fun q hq => by
          rw [if_pos rfl] at hq
          obtain rfl := Option.some_inj.1 hq
          exact hrunning)
      rw [Kernel.setProc_self (k := { k with vm := put_pgdir vm2 new }) hcur] at hres
      exact hres
  · cases hx

/-- The steps of a process with a memory. -/
theorem userStep_inv {k k' : Kernel} {p : Proc} {mm : Mm} {e : Event} (h : Inv k)
    (hcur : k.procs k.current = some p) (hload : p.loading = none) (hmm : p.mm = some mm)
    (hx : k.userStep p mm e = some k') : Inv k' := by
  have hown : p.Owns mm := Or.inl hmm
  have hareas := h.areas _ p mm hcur hown
  have hone : ∀ mm', p.Owns mm' → mm' = mm := by
    rintro mm' (ho | ho)
    · exact Option.some_inj.1 (ho.symm.trans hmm)
    · rw [hload] at ho
      cases ho
  cases e with
  | tlbmiss => exact tlbmiss_inv h hcur hload hmm hx
  | page_insert la page perm table =>
    simp only [Kernel.userStep] at hx
    split at hx
    · next hla =>
      obtain ⟨vm', hi, rfl⟩ := Option.map_eq_some_iff.1 hx
      refine h.edit_own hcur hown (page_insert_spec hi).1 ?_
      intro mm' ho _ _
      rw [hone mm' ho]
      exact hareas.page_insert hla hi
    · cases hx
  | page_remove la =>
    obtain rfl := Option.some_inj.1 hx
    refine h.edit_own hcur hown (page_remove_edit _ _ la) ?_
    intro mm' ho _ _
    rw [hone mm' ho]
    exact hareas.shrinks (page_remove_shrinks _ _ la)
  | unmap_range start stop =>
    obtain ⟨vm', hu, rfl⟩ := Option.map_eq_some_iff.1 hx
    obtain ⟨he, hs, -⟩ := unmap_range_spec hu hareas.ptes
    refine h.edit_own hcur hown he ?_
    intro mm' ho _ _
    rw [hone mm' ho]
    exact hareas.shrinks hs
  | do_fork child f a => exact fork_inv h hcur hmm hx
  | execve => exact execve_inv h hcur hload hmm hx
  | do_exit => exact exit_inv h hcur hload hx
  | _ => cases hx

/-- The steps of `load_icode`: the TLB has no user entry until the new program is in place. -/
theorem loadStep_inv {k k' : Kernel} {p : Proc} {mm : Mm} {e : Event} (h : Inv k)
    (hcur : k.procs k.current = some p) (hload : p.loading = some mm)
    (hx : k.loadStep p mm e = some k') : Inv k' := by
  have hown : p.Owns mm := Or.inr hload
  have hareas := h.areas _ p mm hcur hown
  have hpk := h.procs _ p hcur
  obtain ⟨hcount, hmm⟩ := hpk.loading mm hload
  have htaken := (h.taken _ p mm hcur hown).1
  have hclean : TlbClean k.vm.tlb := by
    have hr := h.running p hcur
    unfold Running at hr
    rw [hmm] at hr
    exact hr
  have hrun (vm : Vm) (hc : TlbClean vm.tlb) (q : Proc) (hq : q.mm = none) : Running vm q := by
    unfold Running
    rw [hq]
    exact hc
  cases e with
  | load_map addr len vm_flags memory =>
    obtain ⟨⟨mm', ok⟩, hm, rfl⟩ := Option.map_eq_some_iff.1 hx
    obtain ⟨hok, hp, hc⟩ := mm_map_spec hareas hm
    refine h.put_own k.vm hcur hown (fun _ _ => rfl) (fun _ _ => rfl) ?_ ?_
      (hrun _ hclean _ hmm)
    · refine ⟨fun mm2 ho => ?_, fun mm2 ho => ?_, fun mm2 ho => ?_⟩
      · exact hpk.count mm2 ho
      · exact hpk.cr3 mm2 ho
      · obtain rfl := Option.some_inj.1 ho
        exact ⟨hc.trans hcount, hmm⟩
    · rintro mm2 (ho | ho)
      · exact absurd (ho.symm.trans hmm) (by simp)
      · obtain rfl := Option.some_inj.1 ho
        exact ⟨hp, hok, htaken⟩
  | load_insert la page perm table =>
    simp only [Kernel.loadStep] at hx
    split at hx
    · next hla =>
      obtain ⟨vm', hi, rfl⟩ := Option.map_eq_some_iff.1 hx
      refine h.edit_own hcur hown (page_insert_spec hi).1 ?_
      rintro mm' (ho | ho) _ _
      · exact absurd (ho.symm.trans hmm) (by simp)
      · obtain rfl := Option.some_inj.1 (hload.symm.trans ho)
        exact hareas.page_insert hla hi
    · cases hx
  | load_fail =>
    obtain ⟨vm', hm, rfl⟩ := Option.map_eq_some_iff.1 hx
    obtain ⟨he, -⟩ := exit_mmap_spec hm hareas
    refine h.put_own (put_pgdir vm' mm) hcur hown he.others ?_ ?_ ?_ ?_
    · intro g hg
      unfold put_pgdir
      simp only [if_neg hg]
      rw [he.taken]
    · refine ⟨fun mm2 ho => ?_, fun mm2 ho => ?_, fun mm2 ho => ?_⟩
      · exact hpk.count mm2 ho
      · exact hpk.cr3 mm2 ho
      · cases ho
    · rintro mm2 (ho | ho)
      · exact absurd (ho.symm.trans hmm) (by simp)
      · cases ho
    · exact hrun _ (hclean.edit he) _ hmm
  | load_finish =>
    obtain rfl := Option.some_inj.1 hx
    refine h.put_own (lcr3 k.vm mm.pgdir) hcur hown (fun _ _ => rfl) (fun _ _ => rfl) ?_ ?_ ?_
    · refine ⟨fun mm2 ho => ?_, fun mm2 ho => ?_, fun mm2 ho => ?_⟩
      · obtain rfl := Option.some_inj.1 ho
        exact congrArg (· + 1) hcount
      · obtain rfl := Option.some_inj.1 ho
        rfl
      · cases ho
    · rintro mm2 (ho | ho)
      · obtain rfl := Option.some_inj.1 ho
        exact ⟨rfl, hareas.congr rfl rfl, htaken⟩
      · cases ho
    · exact ⟨rfl, hclean.coherent _⟩
  | _ => cases hx

/-- The steps of a kernel thread. -/
theorem threadStep_inv {k k' : Kernel} {p : Proc} {e : Event} (h : Inv k)
    (hcur : k.procs k.current = some p) (hload : p.loading = none) (hmm : p.mm = none)
    (hx : k.threadStep p e = some k') : Inv k' := by
  have hpk := h.procs _ p hcur
  have hr := h.running p hcur
  have hclean : TlbClean k.vm.tlb := by
    unfold Running at hr
    rw [hmm] at hr
    exact hr
  cases e with
  | kernel_thread child =>
    simp only [Kernel.threadStep] at hx
    split at hx
    · next hchild =>
      obtain rfl := Option.some_inj.1 hx
      have hne : k.current ≠ child := by
        intro he
        rw [he, hchild] at hcur
        cases hcur
      have hnone : ∀ mm', ¬ (alloc_proc k.boot_pgdir).Owns mm' := by
        rintro mm' (ho | ho)
        · cases ho
        · cases ho
      refine h.put k.vm ?_ ⟨rfl, rfl⟩ ?_ (fun mm' ho => absurd ho (hnone mm')) ?_
      · intro pid' q mm2 _ _ _
        exact ⟨⟨rfl, rfl⟩, fun mm' ho => absurd ho (hnone mm')⟩
      · refine ⟨fun mm2 ho => ?_, fun mm2 ho => ?_, fun mm2 ho => ?_⟩
        · cases ho
        · cases ho
        · cases ho
      · intro q hq
        rw [if_neg hne, hcur] at hq
        obtain rfl := Option.some_inj.1 hq
        exact hr
    · cases hx
  | execve =>
    obtain rfl := Option.some_inj.1 hx
    exact h
  | load_create f =>
    simp only [Kernel.threadStep] at hx
    split at hx
    · next hfree =>
      obtain rfl := Option.some_inj.1 hx
      obtain ⟨hfb, hfo⟩ := h.free hfree
      obtain ⟨-, htf, htlb, -, hsame⟩ := setup_pgdir_spec k.vm k.boot_pgdir f
      have hown : ∀ mm', { p with loading := some (mm_create f) }.Owns mm' → mm' = mm_create f := by
        rintro mm' (ho | ho)
        · exact absurd (ho.symm.trans hmm) (by simp)
        · exact (Option.some_inj.1 ho).symm
      refine h.put _ ?_ (hsame _ hfb.symm) ?_ ?_ ?_
      · intro pid' q mm2 _ hq ho
        have hf2 := hfo pid' q mm2 hq ho
        refine ⟨hsame _ hf2, ?_⟩
        intro mm3 ho3
        rw [hown mm3 ho3]
        exact hf2.symm
      · refine ⟨fun mm2 ho => ?_, fun mm2 ho => ?_, fun mm2 ho => ?_⟩
        · exact hpk.count mm2 ho
        · exact hpk.cr3 mm2 ho
        · obtain rfl := Option.some_inj.1 ho
          exact ⟨rfl, hmm⟩
      · intro mm' ho
        rw [hown mm' ho]
        exact ⟨mmOk_setup h f, htf, hfb⟩
      · intro q hq
        rw [if_pos rfl] at hq
        obtain rfl := Option.some_inj.1 hq
        unfold Running
        simp only [hmm]
        rw [htlb]
        exact hclean
    · cases hx
  | do_exit => exact exit_inv h hcur hload hx
  | _ => cases hx

/-- A context switch flushes the TLB. -/
theorem proc_run_inv {k : Kernel} {pid : Nat} {next : Proc} (h : Inv k)
    (hn : k.procs pid = some next) : Inv (k.proc_run pid next) := by
  unfold Kernel.proc_run
  split
  · exact h
  · refine ⟨h.boot, h.bootTaken, h.procs, h.areas, h.taken, h.owner, ?_⟩
    intro p hp
    obtain rfl := Option.some_inj.1 (hn.symm.trans hp)
    have hclean : TlbClean (tlb_invalidate_all (lcr3 k.vm next.cr3)).tlb := flush_clean _
    unfold Running
    rcases hmm : next.mm with _ | mm
    · exact hclean
    · exact ⟨(h.procs pid next hn).cr3 mm hmm, hclean.coherent _⟩

theorem reap_inv {k : Kernel} (pid : Nat) (h : Inv k) : Inv (k.setProc pid none) := by
  have hprocs {i : Nat} {q : Proc} (hq : (k.setProc pid none).procs i = some q) :
      k.procs i = some q := by
    unfold Kernel.setProc at hq
    simp only at hq
    split at hq
    · cases hq
    · exact hq
  exact ⟨h.boot, h.bootTaken, fun i q hq => h.procs i q (hprocs hq),
    fun i q mm hq ho => h.areas i q mm (hprocs hq) ho,
    fun i q mm hq ho => h.taken i q mm (hprocs hq) ho,
    fun i q mm j r mm' hq ho hr ho' he => h.owner i q mm j r mm' (hprocs hq) ho (hprocs hr) ho' he,
    fun q hq => h.running q (hprocs hq)⟩

theorem step_inv {k k' : Kernel} {e : Event} (h : Inv k) (hx : k.step e = some k') : Inv k' := by
  unfold Kernel.step at hx
  rcases hcur : k.procs k.current with _ | p
  · rw [hcur] at hx
    cases hx
  · rw [hcur] at hx
    simp only at hx
    split at hx
    · next pid =>
      obtain ⟨next, hn, rfl⟩ := Option.map_eq_some_iff.1 hx
      exact proc_run_inv h hn
    · next pid =>
      split at hx
      · split at hx
        · obtain rfl := Option.some_inj.1 hx
          exact reap_inv pid h
        · cases hx
      · cases hx
    · split at hx
      · cases hx
      · split at hx
        · next mm hload => exact loadStep_inv h hcur hload hx
        · next mm hload hmm => exact userStep_inv h hcur hload hmm hx
        · next hload hmm => exact threadStep_inv h hcur hload hmm hx

/-! ## Runs -/

theorem boot_inv (tlb : Tlb) (pgdirs : Nat → Pgdir) (boot_pgdir : Nat) :
    Inv (Kernel.boot tlb pgdirs boot_pgdir) := by
  have hproc {pid : Nat} {p : Proc} (hp : (Kernel.boot tlb pgdirs boot_pgdir).procs pid = some p) :
      p = alloc_proc boot_pgdir := by
    unfold Kernel.boot at hp
    simp only at hp
    split at hp
    · exact (Option.some_inj.1 hp).symm
    · cases hp
  have hnone {pid : Nat} {p : Proc} {mm : Mm}
      (hp : (Kernel.boot tlb pgdirs boot_pgdir).procs pid = some p) : ¬ p.Owns mm := by
    rw [hproc hp]
    rintro (ho | ho)
    · cases ho
    · cases ho
  refine ⟨if_pos rfl, decide_eq_true rfl, ?_, ?_, ?_, ?_, ?_⟩
  · intro pid p hp
    rw [hproc hp]
    refine ⟨fun mm2 ho => ?_, fun mm2 ho => ?_, fun mm2 ho => ?_⟩
    · cases ho
    · cases ho
    · cases ho
  · exact fun pid p mm hp ho => absurd ho (hnone hp)
  · exact fun pid p mm hp ho => absurd ho (hnone hp)
  · exact fun pid p mm pid' p' mm' hp ho => absurd ho (hnone hp)
  · intro p hp
    rw [hproc hp]
    exact flush_clean _

/-- What the kernel does from a state on; there is no state after an event that it cannot do. -/
def Kernel.run (k : Kernel) (es : List Event) : Option Kernel := es.foldlM Kernel.step k

theorem run_inv {k k' : Kernel} {es : List Event} (h : Inv k) (hx : k.run es = some k') :
    Inv k' :=
  invariant_of_partialRun (fun _ _ _ hk => step_inv hk) h hx

/-- From boot, in every state in which a process with user memory is running: no two TLB entries
are for one pair, and every entry that can match a user address says of each of its pages what
the page table of the process says. -/
theorem tlb_is_coherent (tlb : Tlb) (pgdirs : Nat → Pgdir) (boot_pgdir : Nat) (es : List Event)
    (k : Kernel) (p : Proc) (mm : Mm) (hrun : (Kernel.boot tlb pgdirs boot_pgdir).run es = some k)
    (hp : k.procs k.current = some p) (hmm : p.mm = some mm) :
    (∀ i j, vpn2 (k.vm.tlb i) = vpn2 (k.vm.tlb j) → i = j) ∧
      ∀ i va, UserAddr va → vpn2 (k.vm.tlb i) = vpn2Of va →
        EntryAgrees (k.vm.tlb i) va (pteAt (k.vm.pgdirs mm.pgdir) va) := by
  have hr := (run_inv (boot_inv tlb pgdirs boot_pgdir) hrun).running p hp
  unfold Running at hr
  rw [hmm] at hr
  exact ⟨hr.2.distinct, hr.2.agrees⟩

/-- A kernel thread that loads a program of one page, which then misses on its first fetch. -/
def firstProgram : List Event :=
  [.kernel_thread 1, .proc_run 1, .execve, .load_create 7,
    .load_map 0x10000000#32 0x800#32 (VM_READ ||| VM_EXEC) true,
    .load_insert 0x10000000#32 0x80123#20 PTE_U true, .load_finish,
    .tlbmiss 0x10000004#32 false false 0#4 3#4 ⟨none, true⟩]

theorem tlb_is_coherent_firstProgram :
    ∃ k p mm, (Kernel.boot (fun _ => 0#63) (fun _ => .empty) 0).run firstProgram = some k ∧
      k.procs k.current = some p ∧ p.mm = some mm ∧
      (∀ i j, vpn2 (k.vm.tlb i) = vpn2 (k.vm.tlb j) → i = j) ∧
      ∀ i va, UserAddr va → vpn2 (k.vm.tlb i) = vpn2Of va →
        EntryAgrees (k.vm.tlb i) va (pteAt (k.vm.pgdirs mm.pgdir) va) := by
  have hsome : (((Kernel.boot (fun _ => 0#63) (fun _ => .empty) 0).run firstProgram).bind
      fun k => (k.procs k.current).bind fun p => p.mm).isSome = true := by
    decide +kernel
  obtain ⟨mm, hmm⟩ := Option.isSome_iff_exists.1 hsome
  obtain ⟨k, hk, hp⟩ := Option.bind_eq_some_iff.1 hmm
  obtain ⟨p, hp, hm⟩ := Option.bind_eq_some_iff.1 hp
  exact ⟨k, p, mm, hk, hp, hm, tlb_is_coherent _ _ _ firstProgram k p mm hk hp hm⟩

end nehcpu.kernel
