-- What the semaphore keeps in every order of the threads: where each thread stands, who holds
-- the permits, and that the waiters come out in the order in which they went in.
import Nehcpu.Lib.Machine
import Nehcpu.Lib.RefCount
import Nehcpu.Kernel.Semaphore

namespace nehcpu.kernel.semaphore

open cpu Function refcount

/-! ## The invariant -/

/-- A sleeping thread waits at the semaphore and has still to be woken. A runnable one that is not
the current one is in the run queue, and inside of `__down` it was woken by an `up`. -/
structure ThreadOk (s : Sys) (pid : Pid) : Prop where
  waiting : pid ∈ s.wait_queue ↔ (s.procs pid).state = .PROC_SLEEPING
  asleep : (s.procs pid).state = .PROC_SLEEPING →
    (s.procs pid).wait_state = WT_KSEM ∧ (s.procs pid).place ≠ .outside ∧ pid ∉ s.run_list
  runnable : (s.procs pid).state = .PROC_RUNNABLE →
    (s.procs pid).wait_state = 0#32 ∧ (pid ∈ s.run_list ↔ s.current ≠ some pid) ∧
      ((s.procs pid).place ≠ .outside → (s.procs pid).wakeup_flags = WT_KSEM)

/-- The threads, the queues and the log, also in the middle of a call of `schedule`. -/
structure QueuesOk (value : Int) (s : Sys) : Prop where
  thread : ∀ {pid}, pid ∈ s.threads → ThreadOk s pid
  waiters : ∀ {pid}, pid ∈ s.wait_queue → pid ∈ s.threads
  queued : ∀ {pid}, pid ∈ s.run_list → pid ∈ s.threads
  current : ∀ {pid}, s.current = some pid → pid ∈ s.threads
  wait_nodup : s.wait_queue.Nodup
  run_nodup : s.run_list.Nodup
  free : 0 < s.value → s.wait_queue = []
  permits : (downs s.log).length + s.value + s.inFlight.card = value + (ups s.log).length
  fifo : waits s.log = handoffs s.log ++ s.wait_queue

structure SysOk (value : Int) (s : Sys) : Prop extends QueuesOk value s where
  running : ∀ {pid}, s.current = some pid → (s.procs pid).state = .PROC_SLEEPING →
    (s.procs pid).place = .waits

theorem sem_init_ok (value : Int) (procs : Pid → Proc) : SysOk value (sem_init value procs) := by
  refine ⟨⟨?_, nofun, nofun, nofun, List.nodup_nil, List.nodup_nil, fun _ => rfl, ?_, rfl⟩, nofun⟩
  · intro pid h
    exact absurd h (Finset.notMem_empty pid)
  · show (0 : Int) + value + 0 = value + 0
    omega

/-! ## The log -/

section

variable (s : Sys) (o : Obs)

theorem ups_logged : ups (s.logged o).log = ups s.log ++ ups [o] := List.filterMap_append ..

theorem downs_logged : downs (s.logged o).log = downs s.log ++ downs [o] := List.filterMap_append ..

theorem waits_logged : waits (s.logged o).log = waits s.log ++ waits [o] := List.filterMap_append ..

theorem handoffs_logged : handoffs (s.logged o).log = handoffs s.log ++ handoffs [o] :=
  List.filterMap_append ..

end

/-! ## One thread changes -/

/-- The number of hand-offs changes by those of one thread. -/
theorem inFlight_update {s : Sys} (s' : Sys) {pid : Pid} (hp : pid ∈ s.threads)
    (ht : s'.threads = s.threads) (ho : ∀ q, q ≠ pid → s'.procs q = s.procs q) :
    s'.inFlight.card + (if (s.procs pid).HandedOff then 1 else 0) =
      s.inFlight.card + (if (s'.procs pid).HandedOff then 1 else 0) := by
  have hset := refs_set
    (f := fun q => if (s.procs q).HandedOff then some () else none)
    (g := fun q => if (s'.procs q).HandedOff then some () else none) hp
    (fun q _ hq => by rw [ho q hq]) ()
  have hrefs : ∀ (x : Sys), x.threads = s.threads → refs s.threads
      (fun q => if (x.procs q).HandedOff then some () else none) () = x.inFlight.card := by
    intro x hx
    unfold refs Sys.inFlight
    rw [hx]
    congr 1
    apply Finset.filter_congr
    intro q _
    show (if (x.procs q).HandedOff then some () else none) = some () ↔ _
    split
    · next h => exact ⟨fun _ => h, fun _ => rfl⟩
    · next h => exact ⟨fun he => (Option.some_ne_none _ he.symm).elim, fun he => absurd he h⟩
  have hholds : ∀ p : Proc, holds (if p.HandedOff then some () else none) () =
      if p.HandedOff then 1 else 0 := by
    intro p
    split
    · exact holds_self ()
    · exact holds_none ()
  rw [hrefs s rfl, hrefs s' ht, hholds, hholds] at hset
  exact hset

/-- A thread goes to the end of a queue that it is not in. -/
theorem nodup_append_one {l : List Pid} {pid : Pid} (h : l.Nodup) (hn : pid ∉ l) :
    (l ++ [pid]).Nodup := by
  rw [List.nodup_append]
  refine ⟨h, List.nodup_singleton pid, ?_⟩
  rintro a ha b hb rfl
  rw [List.mem_singleton] at hb
  exact hn (hb ▸ ha)

section

variable {s s' : Sys} {pid : Pid}

/-- A thread that a step leaves alone. -/
theorem ThreadOk.congr (h : ThreadOk s pid) (hp : s'.procs pid = s.procs pid)
    (hw : pid ∈ s'.wait_queue ↔ pid ∈ s.wait_queue) (hr : pid ∈ s'.run_list ↔ pid ∈ s.run_list)
    (hc : s'.current = s.current) : ThreadOk s' pid := by
  refine ⟨?_, ?_, ?_⟩
  · rw [hw, hp]
    exact h.waiting
  · rw [hp, hr]
    exact h.asleep
  · rw [hp, hr, hc]
    exact h.runnable

/-- The flag that `do_kill` looks for is set in no thread. -/
theorem ThreadOk.not_interrupted (h : ThreadOk s pid) :
    (s.procs pid).wait_state &&& WT_INTERRUPTED = 0#32 := by
  cases hst : (s.procs pid).state with
  | PROC_SLEEPING =>
    rw [(h.asleep hst).1]
    decide
  | PROC_RUNNABLE =>
    rw [(h.runnable hst).1]
    decide

theorem procs_setProc (s : Sys) (pid q : Pid) (p : Proc) :
    (s.setProc pid p).procs q = if q = pid then p else s.procs q := update_apply _ _ _ _

theorem ProcState.not_sleeping {x : ProcState} : x ≠ .PROC_SLEEPING ↔ x = .PROC_RUNNABLE := by
  cases x <;> decide

/-- A thread changes in nothing that the queues tell of. -/
theorem QueuesOk.setProc {value : Int} (h : QueuesOk value s) (hp : pid ∈ s.threads) {p : Proc}
    (hs : p.state = (s.procs pid).state) (hw : p.wait_state = (s.procs pid).wait_state)
    (hl : p.place = .outside ↔ (s.procs pid).place = .outside)
    (hf : p.wakeup_flags = (s.procs pid).wakeup_flags) : QueuesOk value (s.setProc pid p) := by
  have hflight : (s.setProc pid p).inFlight.card = s.inFlight.card := by
    have hu := inFlight_update (s.setProc pid p) hp rfl
      (fun q hq => by rw [procs_setProc, if_neg hq])
    have hh : ((s.setProc pid p).procs pid).HandedOff ↔ (s.procs pid).HandedOff := by
      rw [procs_setProc, if_pos rfl]
      unfold Proc.HandedOff
      rw [hs, ne_eq, hl]
    simp only [hh] at hu
    omega
  refine ⟨?_, h.waiters, h.queued, h.current, h.wait_nodup, h.run_nodup, h.free, ?_, h.fifo⟩
  · intro q hq
    by_cases he : q = pid
    · rw [he]
      have ht := h.thread hp
      have hpp : (s.setProc pid p).procs pid = p := by rw [procs_setProc, if_pos rfl]
      have hl' : p.place ≠ .outside ↔ (s.procs pid).place ≠ .outside := not_congr hl
      refine ⟨?_, ?_, ?_⟩
      · rw [hpp, hs]
        exact ht.waiting
      · rw [hpp, hs, hw, hl']
        exact ht.asleep
      · rw [hpp, hs, hw, hl', hf]
        exact ht.runnable
    · exact (h.thread hq).congr (by rw [procs_setProc, if_neg he]) Iff.rfl Iff.rfl rfl
  · rw [hflight]
    exact h.permits

end

/-! ## `schedule` -/

/-- The run queue holds the threads that can run and do not. -/
theorem QueuesOk.mem_run_list {value : Int} {s : Sys} (h : QueuesOk value s) (q : Pid) :
    q ∈ s.run_list ↔ q ∈ s.threads ∧ (s.procs q).state = .PROC_RUNNABLE ∧ s.current ≠ some q := by
  constructor
  · intro hq
    have ht := h.thread (h.queued hq)
    have hr : (s.procs q).state = .PROC_RUNNABLE :=
      ProcState.not_sleeping.1 fun hsl => (ht.asleep hsl).2.2 hq
    exact ⟨h.queued hq, hr, (ht.runnable hr).2.1.1 hq⟩
  · rintro ⟨hq, hr, hc⟩
    exact ((h.thread hq).runnable hr).2.1.2 hc

/-- `schedule` takes the head of a queue of all threads that can run. -/
theorem schedule_eq {value : Int} {s : Sys} (h : QueuesOk value s) : ∃ l : List Pid,
    schedule s = some { s with run_list := l.tail, current := l.head? } ∧
    (∀ q, q ∈ l ↔ q ∈ s.threads ∧ (s.procs q).state = .PROC_RUNNABLE) ∧ l.Nodup := by
  unfold schedule
  rcases hc : s.current with _ | pid
  · refine ⟨s.run_list, rfl, ?_, h.run_nodup⟩
    intro q
    rw [h.mem_run_list, hc]
    simp
  · have hp := h.current hc
    by_cases hr : (s.procs pid).state = .PROC_RUNNABLE
    · have hn : pid ∉ s.run_list := fun hq => (((h.thread hp).runnable hr).2.1.1 hq) hc
      simp only [if_pos hr, enqueue, if_neg hn, Option.map_some]
      refine ⟨s.run_list ++ [pid], rfl, ?_, nodup_append_one h.run_nodup hn⟩
      intro q
      rw [List.mem_append, List.mem_singleton, h.mem_run_list, hc]
      constructor
      · rintro (⟨h1, h2, -⟩ | rfl)
        · exact ⟨h1, h2⟩
        · exact ⟨hp, hr⟩
      · rintro ⟨h1, h2⟩
        by_cases he : q = pid
        · exact Or.inr he
        · exact Or.inl ⟨h1, h2, fun hs => he (Option.some_inj.1 hs).symm⟩
    · simp only [if_neg hr, Option.map_some]
      refine ⟨s.run_list, rfl, ?_, h.run_nodup⟩
      intro q
      rw [h.mem_run_list, hc]
      constructor
      · rintro ⟨h1, h2, -⟩
        exact ⟨h1, h2⟩
      · rintro ⟨h1, h2⟩
        refine ⟨h1, h2, ?_⟩
        rintro he
        rw [Option.some_inj] at he
        exact hr (he ▸ h2)

theorem mem_tail_iff {l : List Pid} (h : l.Nodup) (q : Pid) :
    q ∈ l.tail ↔ q ∈ l ∧ l.head? ≠ some q := by
  cases l with
  | nil => simp
  | cons a l =>
    have ha := (List.nodup_cons.1 h).1
    simp only [List.tail_cons, List.mem_cons, List.head?_cons, ne_eq, Option.some_inj]
    constructor
    · intro hq
      refine ⟨Or.inr hq, ?_⟩
      rintro rfl
      exact ha hq
    · rintro ⟨rfl | hq, hne⟩
      · exact absurd rfl hne
      · exact hq

/-- The thread at the head of the run queue goes on, and the one that ran goes to its end. -/
theorem schedule_ok {value : Int} {s : Sys} (h : QueuesOk value s) :
    ∃ s', schedule s = some s' ∧ SysOk value s' ∧ s'.value = s.value ∧ s'.procs = s.procs ∧
      s'.log = s.log ∧ s'.threads = s.threads := by
  obtain ⟨l, hl, hmem, hnodup⟩ := schedule_eq h
  have htail := mem_tail_iff hnodup
  refine ⟨_, hl, ⟨⟨?_, h.waiters, ?_, ?_, h.wait_nodup, ?_, h.free, h.permits, h.fifo⟩, ?_⟩, rfl,
    rfl, rfl, rfl⟩
  · intro q hq
    have ht := h.thread hq
    refine ⟨ht.waiting, ?_, ?_⟩
    · intro hsl
      obtain ⟨h1, h2, -⟩ := ht.asleep hsl
      refine ⟨h1, h2, ?_⟩
      show q ∉ l.tail
      rw [htail, hmem]
      rintro ⟨⟨-, hr⟩, -⟩
      exact ProcState.not_sleeping.2 hr hsl
    · intro hr
      obtain ⟨h1, -, h2⟩ := ht.runnable hr
      refine ⟨h1, ?_, h2⟩
      show q ∈ l.tail ↔ l.head? ≠ some q
      rw [htail, hmem]
      exact and_iff_right ⟨hq, hr⟩
  · intro q hq
    exact ((hmem q).1 ((htail q).1 hq).1).1
  · intro q hq
    exact ((hmem q).1 (List.mem_of_head? hq)).1
  · exact hnodup.sublist (List.tail_sublist l)
  · intro q hq hsl
    have hr := ((hmem q).1 (List.mem_of_head? hq)).2
    exact absurd hsl (ProcState.not_sleeping.2 hr)

/-! ## `up` and `down` -/

section

variable {value : Int} {s : Sys} {pid : Pid}

/-- The current thread outside of `down` runs, and stands in no queue. -/
theorem SysOk.outside (h : SysOk value s) (hc : s.current = some pid)
    (hp : (s.procs pid).place = .outside) :
    (s.procs pid).state = .PROC_RUNNABLE ∧ pid ∉ s.wait_queue ∧ pid ∉ s.run_list := by
  have ht := h.thread (h.current hc)
  have hr : (s.procs pid).state = .PROC_RUNNABLE :=
    ProcState.not_sleeping.1 fun hsl => (ht.asleep hsl).2.1 hp
  refine ⟨hr, ?_, ?_⟩
  · rw [ht.waiting]
    exact ProcState.not_sleeping.2 hr
  · rw [(ht.runnable hr).2.1]
    exact fun hne => hne hc

/-- The value of the semaphore and the log change. -/
theorem SysOk.setValue (h : SysOk value s) (n : Int) (o : Obs)
    (hw : waits [o] = []) (hh : handoffs [o] = []) (hfree : 0 < s.value + n → s.wait_queue = [])
    (hn : n + (downs [o]).length = (ups [o]).length) :
    SysOk value ({ s with value := s.value + n }.logged o) := by
  refine ⟨⟨?_, h.waiters, h.queued, h.current, h.wait_nodup, h.run_nodup, hfree, ?_, ?_⟩, h.running⟩
  · intro q hq
    exact (h.thread hq).congr rfl Iff.rfl Iff.rfl rfl
  · have hp := h.permits
    rw [ups_logged, downs_logged, List.length_append, List.length_append]
    show _ + (s.value + n) + (s.inFlight.card : Int) = _
    push_cast
    omega
  · rw [waits_logged, handoffs_logged, hw, hh, List.append_nil, List.append_nil]
    exact h.fifo

/-- `up` without a waiter. -/
theorem up_free (h : SysOk value s) (hq : s.wait_queue = []) (pid : Pid) :
    ∃ s', up s pid = some s' ∧ SysOk value s' := by
  refine ⟨{ s with value := s.value + 1 }.logged (.up pid), ?_,
    h.setValue 1 (.up pid) rfl rfl (fun _ => hq) rfl⟩
  unfold up
  rw [hq]

/-- A waiter sleeps, and is neither in the run queue nor the thread that runs outside of `down`. -/
theorem SysOk.waiter (h : SysOk value s) (hc : s.current = some pid)
    (hp : (s.procs pid).place = .outside) {w : Pid} (hw : w ∈ s.wait_queue) :
    (s.procs w).state = .PROC_SLEEPING ∧ (s.procs w).wait_state = WT_KSEM ∧
      (s.procs w).place ≠ .outside ∧ w ∉ s.run_list ∧ s.current ≠ some w := by
  have ht := h.thread (h.waiters hw)
  have hsl := ht.waiting.1 hw
  obtain ⟨hws, hpl, hnr⟩ := ht.asleep hsl
  refine ⟨hsl, hws, hpl, hnr, ?_⟩
  rw [hc]
  intro he
  obtain rfl := Option.some_inj.1 he
  exact hpl hp

/-- The state after `wakeup_wait` of a thread that sleeps. -/
def woken (s : Sys) (w : Pid) : Sys :=
  { s.setProc w { s.procs w with
      wakeup_flags := WT_KSEM, state := .PROC_RUNNABLE, wait_state := 0#32 } with
    wait_queue := s.wait_queue.erase w, run_list := s.run_list ++ [w] }

/-- `up` with a waiter gives the permit to the first one. -/
theorem up_handoff (h : SysOk value s) (hc : s.current = some pid)
    (hp : (s.procs pid).place = .outside) {w : Pid} {rest : List Pid}
    (hq : s.wait_queue = w :: rest) :
    up s pid = some (((woken s w).logged (.up pid)).logged (.handoff w)) := by
  have hw : w ∈ s.wait_queue := by
    rw [hq]
    exact List.mem_cons_self
  obtain ⟨hsl, hws, -, hnr, hne⟩ := h.waiter hc hp hw
  have hnsl : (ProcState.PROC_SLEEPING ≠ ProcState.PROC_RUNNABLE) := by decide
  unfold up
  rw [hq]
  simp only [hws, if_true]
  unfold wakeup_wait wakeup_proc enqueue
  simp only [procs_setProc, if_true, hsl, if_pos hnsl]
  have hcur : ({ s with wait_queue := s.wait_queue.erase w } : Sys).current ≠ some w := hne
  unfold Sys.setProc
  simp only [if_pos hcur, if_neg hnr, Option.map_some, update_idem]
  rfl

/-- The thread that was woken waits for its turn in the run queue, with the flags of an `up`. -/
theorem woken_self {w : Pid} (hnw : w ∉ (woken s w).wait_queue) (hne : s.current ≠ some w) :
    ThreadOk (woken s w) w := by
  have hself : (woken s w).procs w = { s.procs w with
      wakeup_flags := WT_KSEM, state := .PROC_RUNNABLE, wait_state := 0#32 } := update_self _ _ _
  refine ⟨?_, ?_, ?_⟩
  · rw [hself]
    exact ⟨fun hm => absurd hm hnw, nofun⟩
  · rw [hself]
    exact nofun
  · intro _
    rw [hself]
    exact ⟨rfl, ⟨fun _ => hne, fun _ => List.mem_append_right _ List.mem_cons_self⟩, fun _ => rfl⟩

theorem woken_ok (h : SysOk value s) (hc : s.current = some pid)
    (hp : (s.procs pid).place = .outside) {w : Pid} {rest : List Pid}
    (hq : s.wait_queue = w :: rest) :
    SysOk value (((woken s w).logged (.up pid)).logged (.handoff w)) := by
  have hw : w ∈ s.wait_queue := by
    rw [hq]
    exact List.mem_cons_self
  have hwt := h.waiters hw
  obtain ⟨hsl, -, hpl, hnr, hne⟩ := h.waiter hc hp hw
  have herase : s.wait_queue.erase w = rest := by
    rw [hq, List.erase_cons_head]
  have hnodup := h.wait_nodup
  rw [hq, List.nodup_cons] at hnodup
  obtain ⟨hself, hother⟩ : ((woken s w).procs w = { s.procs w with
      wakeup_flags := WT_KSEM, state := .PROC_RUNNABLE, wait_state := 0#32 }) ∧
      ∀ q, q ≠ w → (woken s w).procs q = s.procs q :=
    ⟨update_self _ _ _, fun q hqw => update_of_ne hqw _ _⟩
  have hwq : (woken s w).wait_queue = rest := herase
  have hrl : (woken s w).run_list = s.run_list ++ [w] := rfl
  have hu := inFlight_update (woken s w) hwt rfl hother
  have h0 : ¬ (s.procs w).HandedOff := by
    rintro ⟨-, hr⟩
    exact ProcState.not_sleeping.2 hr hsl
  have h1 : ((woken s w).procs w).HandedOff := by
    rw [hself]
    exact ⟨hpl, rfl⟩
  rw [if_neg h0, if_pos h1] at hu
  refine ⟨⟨?_, ?_, ?_, h.current, ?_, ?_, ?_, ?_, ?_⟩, ?_⟩
  · intro q hqt
    by_cases he : q = w
    · rw [he]
      have ht : ThreadOk (woken s w) w := woken_self (by rw [hwq]; exact hnodup.1) hne
      exact ht.congr rfl Iff.rfl Iff.rfl rfl
    · refine (h.thread hqt).congr (hother q he) ?_ ?_ rfl
      · show q ∈ (woken s w).wait_queue ↔ _
        rw [hwq, hq, List.mem_cons]
        exact ⟨Or.inr, fun ho => ho.resolve_left he⟩
      · show q ∈ (woken s w).run_list ↔ _
        rw [hrl, List.mem_append, List.mem_singleton]
        exact ⟨fun ho => ho.resolve_right he, Or.inl⟩
  · intro q hqm
    have hqm' : q ∈ rest := by
      rw [← hwq]
      exact hqm
    apply h.waiters
    rw [hq]
    exact List.mem_cons_of_mem w hqm'
  · intro q hqm
    have hqm' : q ∈ s.run_list ++ [w] := hqm
    rcases List.mem_append.1 hqm' with hm | hm
    · exact h.queued hm
    · rw [List.mem_singleton.1 hm]
      exact hwt
  · show (woken s w).wait_queue.Nodup
    rw [hwq]
    exact hnodup.2
  · exact nodup_append_one h.run_nodup hnr
  · intro hpos
    have hempty := h.free hpos
    rw [hq] at hempty
    cases hempty
  · have hperm := h.permits
    rw [ups_logged, downs_logged, ups_logged, downs_logged]
    show (((downs s.log ++ []) ++ []).length : Int) + s.value + ((woken s w).inFlight.card : Int) =
      value + (((ups s.log ++ [pid]) ++ []).length : Int)
    simp only [List.append_nil, List.length_append, List.length_singleton]
    push_cast
    omega
  · have hf := h.fifo
    rw [waits_logged, handoffs_logged, waits_logged, handoffs_logged]
    show (waits s.log ++ []) ++ [] = ((handoffs s.log ++ []) ++ [w]) ++ (woken s w).wait_queue
    rw [hwq, hf, hq]
    simp only [List.append_nil, List.append_assoc, List.singleton_append]
  · intro q hqc hsq
    have hqc' : s.current = some q := hqc
    have hne' : q ≠ w := by
      rintro rfl
      exact hne hqc'
    have hqq : (((woken s w).logged (.up pid)).logged (.handoff w)).procs q = s.procs q :=
      hother q hne'
    rw [hqq] at hsq ⊢
    exact h.running hqc' hsq

/-- The state after `wait_current_set`. -/
def asleep (s : Sys) (pid : Pid) : Sys :=
  { s.setProc pid { s.procs pid with
      wakeup_flags := WT_INTERRUPTED, state := .PROC_SLEEPING, wait_state := WT_KSEM,
      place := .waits } with
    wait_queue := s.wait_queue ++ [pid] }

theorem asleep_self (hnr : pid ∉ s.run_list) : ThreadOk (asleep s pid) pid := by
  have hself : (asleep s pid).procs pid = { s.procs pid with
      wakeup_flags := WT_INTERRUPTED, state := .PROC_SLEEPING, wait_state := WT_KSEM,
      place := .waits } := update_self _ _ _
  refine ⟨?_, ?_, ?_⟩
  · rw [hself]
    exact ⟨fun _ => rfl, fun _ => List.mem_append_right _ List.mem_cons_self⟩
  · intro _
    rw [hself]
    exact ⟨rfl, nofun, hnr⟩
  · rw [hself]
    exact nofun

/-- `down` that has to wait. -/
theorem down_wait (h : SysOk value s) (hc : s.current = some pid)
    (hp : (s.procs pid).place = .outside) (hv : ¬ s.value > 0) :
    ∃ s', down s pid = some s' ∧ SysOk value s' := by
  obtain ⟨-, hnw, hnr⟩ := h.outside hc hp
  have hpt := h.current hc
  have hdown : down s pid = some ((asleep s pid).logged (.wait pid)) := by
    unfold down wait_current_set
    rw [if_neg hv, if_neg hnw]
    rfl
  have hother : ∀ q, q ≠ pid → (asleep s pid).procs q = s.procs q := fun q hq =>
    update_of_ne hq _ _
  have hu := inFlight_update (asleep s pid) hpt rfl hother
  have h0 : ¬ (s.procs pid).HandedOff := fun hh => hh.1 hp
  have h1 : ¬ ((asleep s pid).procs pid).HandedOff := by
    rintro ⟨-, hr⟩
    have hsl : ((asleep s pid).procs pid).state = .PROC_SLEEPING :=
      (asleep_self hnr).waiting.1 (List.mem_append_right _ List.mem_cons_self)
    exact ProcState.not_sleeping.2 hr hsl
  rw [if_neg h0, if_neg h1] at hu
  refine ⟨_, hdown, ⟨⟨?_, ?_, h.queued, h.current, ?_, h.run_nodup, ?_, ?_, ?_⟩, ?_⟩⟩
  · intro q hq
    by_cases he : q = pid
    · rw [he]
      exact (asleep_self hnr).congr rfl Iff.rfl Iff.rfl rfl
    · refine (h.thread hq).congr (hother q he) ?_ Iff.rfl rfl
      show q ∈ s.wait_queue ++ [pid] ↔ _
      rw [List.mem_append, List.mem_singleton]
      exact ⟨fun ho => ho.resolve_right he, Or.inl⟩
  · intro q hq
    show q ∈ s.threads
    rcases List.mem_append.1 hq with hm | hm
    · exact h.waiters hm
    · rw [List.mem_singleton.1 hm]
      exact hpt
  · exact nodup_append_one h.wait_nodup hnw
  · exact fun hpos => absurd hpos hv
  · have hperm := h.permits
    rw [ups_logged, downs_logged]
    show ((downs s.log ++ []).length : Int) + s.value + ((asleep s pid).inFlight.card : Int) =
      value + ((ups s.log ++ []).length : Int)
    rw [List.append_nil, List.append_nil]
    omega
  · rw [waits_logged, handoffs_logged]
    show waits s.log ++ [pid] = (handoffs s.log ++ []) ++ (s.wait_queue ++ [pid])
    rw [h.fifo, List.append_nil, List.append_assoc]
  · intro q hqc _
    have hqc' : s.current = some q := hqc
    rw [hc, Option.some_inj] at hqc'
    rw [← hqc']
    show (update s.procs pid _ pid).place = .waits
    rw [update_self]

/-- The state after the rest of `down`. -/
def returned (s : Sys) (pid : Pid) : Sys :=
  (s.setProc pid { s.procs pid with place := .outside }).logged (.down pid)

/-- A thread that comes back from `schedule` in `down` has the permit: it is in no queue, and the
flags are those of an `up`. -/
theorem downReturn_eq (h : SysOk value s) (hc : s.current = some pid)
    (hp : (s.procs pid).place = .scheduled) :
    (s.procs pid).HandedOff ∧ downReturn s pid = some (returned s pid) := by
  have ht := h.thread (h.current hc)
  have hr : (s.procs pid).state = .PROC_RUNNABLE := by
    apply ProcState.not_sleeping.1
    intro hsl
    have hw := h.running hc hsl
    rw [hp] at hw
    cases hw
  have hout : (s.procs pid).place ≠ .outside := by
    rw [hp]
    exact nofun
  have hf := (ht.runnable hr).2.2 hout
  have hnw : pid ∉ s.wait_queue := by
    rw [ht.waiting]
    exact ProcState.not_sleeping.2 hr
  refine ⟨⟨hout, hr⟩, ?_⟩
  have herase : ({ s with wait_queue := s.wait_queue.erase pid } : Sys) = s := by
    rw [List.erase_of_not_mem hnw]
  have hflags : (if (s.procs pid).wakeup_flags ≠ WT_KSEM then (s.procs pid).wakeup_flags
      else 0#32) = 0#32 := if_neg fun hne => hne hf
  unfold downReturn
  simp only [herase, hflags, if_true]
  rfl

theorem returned_ok (h : SysOk value s) (hc : s.current = some pid)
    (hh : (s.procs pid).HandedOff) : SysOk value (returned s pid) := by
  have hpt := h.current hc
  obtain ⟨hself, hother⟩ : (returned s pid).procs pid = { s.procs pid with place := .outside } ∧
      ∀ q, q ≠ pid → (returned s pid).procs q = s.procs q :=
    ⟨update_self _ _ _, fun q hq => update_of_ne hq _ _⟩
  have hu := inFlight_update (returned s pid) hpt rfl hother
  have h1 : ¬ ((returned s pid).procs pid).HandedOff := by
    rw [hself]
    exact fun hh => hh.1 rfl
  rw [if_pos hh, if_neg h1] at hu
  refine ⟨⟨?_, h.waiters, h.queued, h.current, h.wait_nodup, h.run_nodup, h.free, ?_, ?_⟩, ?_⟩
  · intro q hq
    by_cases he : q = pid
    · have ht := h.thread hpt
      obtain ⟨hw0, hrun, -⟩ := ht.runnable hh.2
      rw [he]
      refine ⟨?_, ?_, ?_⟩
      · rw [hself]
        exact ht.waiting
      · rw [hself]
        intro hsl
        exact absurd hsl (ProcState.not_sleeping.2 hh.2)
      · rw [hself]
        exact fun _ => ⟨hw0, hrun, fun hout => absurd rfl hout⟩
    · exact (h.thread hq).congr (hother q he) Iff.rfl Iff.rfl rfl
  · have hperm := h.permits
    have hlog : (returned s pid).log = s.log ++ [.down pid] := rfl
    have hd : downs (returned s pid).log = downs s.log ++ [pid] := by
      rw [hlog]
      exact List.filterMap_append ..
    have hup : ups (returned s pid).log = ups s.log ++ [] := by
      rw [hlog]
      exact List.filterMap_append ..
    have hval : (returned s pid).value = s.value := rfl
    rw [hd, hup, hval, List.length_append, List.append_nil, List.length_singleton]
    push_cast
    omega
  · show waits (_ ++ [_]) = handoffs (_ ++ [_]) ++ s.wait_queue
    have hf := h.fifo
    unfold waits handoffs at hf ⊢
    rw [List.filterMap_append, List.filterMap_append]
    show (_ ++ []) = (_ ++ []) ++ s.wait_queue
    rw [List.append_nil, List.append_nil]
    exact hf
  · intro q hqc hsl
    by_cases he : q = pid
    · rw [he, hself] at hsl
      exact absurd hsl (ProcState.not_sleeping.2 hh.2)
    · rw [hother q he] at hsl ⊢
      exact h.running hqc hsl

/-- The queues where the current thread is about to call `schedule` in `down`. -/
theorem SysOk.scheduled (h : SysOk value s) (hc : s.current = some pid)
    (hp : (s.procs pid).place = .waits) :
    QueuesOk value (s.setProc pid { s.procs pid with place := .scheduled }) := by
  apply h.toQueuesOk.setProc (h.current hc)
  · rfl
  · rfl
  · rw [hp]
    exact ⟨nofun, nofun⟩
  · rfl

/-- The call of `schedule` in `down`. -/
theorem downSchedule_ok (h : SysOk value s) (hc : s.current = some pid)
    (hp : (s.procs pid).place = .waits) : ∃ s', downSchedule s pid = some s' ∧ SysOk value s' := by
  obtain ⟨s', hs, hok, -⟩ := schedule_ok (h.scheduled hc hp)
  exact ⟨s', hs, hok⟩

/-! ## The other events -/

/-- A thread that waits at a semaphore is not one that `do_kill` wakes. -/
theorem do_kill_ok (h : SysOk value s) (hp : pid ∈ s.threads) :
    ∃ s', do_kill s pid = some s' ∧ SysOk value s' := by
  have hws := (h.thread hp).not_interrupted
  unfold do_kill
  simp only [hws, ne_eq, not_true_eq_false, if_false]
  split
  · refine ⟨_, rfl, ⟨h.toQueuesOk.setProc hp rfl rfl Iff.rfl rfl, ?_⟩⟩
    intro q hqc hsl
    rw [procs_setProc] at hsl ⊢
    split
    · next he =>
      rw [if_pos he] at hsl
      rw [he] at hqc
      exact h.running hqc hsl
    · next he =>
      rw [if_neg he] at hsl
      exact h.running hqc hsl
  · exact ⟨s, rfl, h⟩

theorem kernel_thread_ok (h : SysOk value s) (hp : pid ∉ s.threads) :
    ∃ s', kernel_thread s pid = some s' ∧ SysOk value s' := by
  have hnr : pid ∉ s.run_list := fun hm => hp (h.queued hm)
  have hnw : pid ∉ s.wait_queue := fun hm => hp (h.waiters hm)
  have hnc : s.current ≠ some pid := fun hc => hp (h.current hc)
  obtain ⟨s1, hs1⟩ : ∃ s1, s1 = ({ ({ s with threads := insert pid s.threads } : Sys).setProc pid
      ⟨.PROC_RUNNABLE, 0#32, false, .outside, 0#32⟩ with run_list := s.run_list ++ [pid] } : Sys) :=
    ⟨_, rfl⟩
  have hk : kernel_thread s pid = some s1 := by
    unfold kernel_thread enqueue
    rw [hs1]
    exact if_neg hnr
  have hself : s1.procs pid = ⟨.PROC_RUNNABLE, 0#32, false, .outside, 0#32⟩ := by
    rw [hs1]
    exact update_self _ _ _
  have hother : ∀ q, q ≠ pid → s1.procs q = s.procs q := by
    intro q hq
    rw [hs1]
    exact update_of_ne hq _ _
  have hold : ∀ q ∈ s.threads, q ≠ pid := fun q hq he => hp (he ▸ hq)
  have hsame : s1.threads = insert pid s.threads ∧ s1.run_list = s.run_list ++ [pid] ∧
      s1.current = s.current ∧ s1.value = s.value ∧ s1.log = s.log ∧
      s1.wait_queue = s.wait_queue := by
    rw [hs1]
    exact ⟨rfl, rfl, rfl, rfl, rfl, rfl⟩
  obtain ⟨hth, hrl, hcur, hval, hlog, hwq⟩ := hsame
  have hflight : s1.inFlight = s.inFlight := by
    unfold Sys.inFlight
    rw [hth, Finset.filter_insert, if_neg]
    · apply Finset.filter_congr
      intro q hq
      rw [hother q (hold q hq)]
    · rw [hself]
      exact fun hh => hh.1 rfl
  refine ⟨s1, hk, ⟨⟨?_, ?_, ?_, ?_, ?_, ?_, ?_, ?_, ?_⟩, ?_⟩⟩
  · intro q hq
    rw [hth] at hq
    rcases Finset.mem_insert.1 hq with rfl | hq
    · refine ⟨?_, ?_, ?_⟩
      · rw [hwq, hself]
        exact ⟨fun hm => absurd hm hnw, nofun⟩
      · rw [hself]
        exact nofun
      · rw [hself, hrl, hcur]
        exact fun _ => ⟨rfl, ⟨fun _ => hnc, fun _ => List.mem_append_right _ List.mem_cons_self⟩,
          fun hout => absurd rfl hout⟩
    · refine (h.thread hq).congr (hother q (hold q hq)) ?_ ?_ hcur
      · rw [hwq]
      · rw [hrl, List.mem_append, List.mem_singleton]
        exact ⟨fun ho => ho.resolve_right (hold q hq), Or.inl⟩
  · intro q hq
    rw [hwq] at hq
    rw [hth]
    exact Finset.mem_insert_of_mem (h.waiters hq)
  · intro q hq
    rw [hrl] at hq
    rw [hth]
    rcases List.mem_append.1 hq with hq | hq
    · exact Finset.mem_insert_of_mem (h.queued hq)
    · rw [List.mem_singleton.1 hq]
      exact Finset.mem_insert_self pid s.threads
  · intro q hq
    rw [hcur] at hq
    rw [hth]
    exact Finset.mem_insert_of_mem (h.current hq)
  · rw [hwq]
    exact h.wait_nodup
  · rw [hrl]
    exact nodup_append_one h.run_nodup hnr
  · rw [hval, hwq]
    exact h.free
  · rw [hlog, hval, hflight]
    exact h.permits
  · rw [hlog, hwq]
    exact h.fifo
  · intro q hq
    rw [hcur] at hq
    rw [hother q (hold q (h.current hq))]
    exact h.running hq

end

/-! ## Runs -/

theorem mem_current {s : Sys} {place : Place} (h : s.At place) :
    ∃ pid, s.current = some pid ∧ (s.procs pid).place = place := h

/-- Every allowed event passes its assertions and keeps the invariant. -/
theorem step_ok {value : Int} {s : Sys} (h : SysOk value s) (e : Event) (ha : e.Allowed s) :
    ∃ s', e.step s = some s' ∧ SysOk value s' := by
  cases e with
  | kernel_thread pid => exact kernel_thread_ok h ha
  | up =>
    obtain ⟨pid, hc, hp⟩ := mem_current ha
    simp only [Event.step, hc, Option.bind_some]
    rcases hq : s.wait_queue with _ | ⟨w, rest⟩
    · exact up_free h hq pid
    · exact ⟨_, up_handoff h hc hp hq, woken_ok h hc hp hq⟩
  | down =>
    obtain ⟨pid, hc, hp⟩ := mem_current ha
    simp only [Event.step, hc, Option.bind_some]
    by_cases hv : s.value > 0
    · refine ⟨{ s with value := s.value - 1 }.logged (.down pid), ?_, ?_⟩
      · unfold down
        rw [if_pos hv]
      · exact h.setValue (-1) (.down pid) rfl rfl (fun _ => h.free hv) rfl
    · exact down_wait h hc hp hv
  | try_down =>
    obtain ⟨pid, hc, -⟩ := mem_current ha
    simp only [Event.step, hc, Option.map_some]
    refine ⟨_, rfl, ?_⟩
    unfold try_down
    split
    · next hv => exact h.setValue (-1) (.down pid) rfl rfl (fun _ => h.free hv) rfl
    · exact h
  | downSchedule =>
    obtain ⟨pid, hc, hp⟩ := mem_current ha
    simp only [Event.step, hc, Option.bind_some]
    exact downSchedule_ok h hc hp
  | downReturn =>
    obtain ⟨pid, hc, hp⟩ := mem_current ha
    simp only [Event.step, hc, Option.bind_some]
    obtain ⟨hh, he⟩ := downReturn_eq h hc hp
    exact ⟨_, he, returned_ok h hc hh⟩
  | schedule =>
    obtain ⟨s', hs, hok, -⟩ := schedule_ok h.toQueuesOk
    exact ⟨s', hs, hok⟩
  | do_kill pid => exact do_kill_ok h ha

theorem Reachable.ok {value : Int} {procs : Pid → Proc} {s : Sys} (h : Reachable value procs s) :
    SysOk value s := by
  induction h with
  | start => exact sem_init_ok value procs
  | step e _ ha hs ih =>
    obtain ⟨s1, h1, hok⟩ := step_ok ih e ha
    rw [hs, Option.some_inj] at h1
    rw [h1]
    exact hok

/-! ## Hand-offs -/

/-- A thread that was woken keeps its permit until it returns from `down`. -/
theorem handedOff_step {value : Int} {s s' : Sys} (h : SysOk value s) {pid : Pid}
    (hp : pid ∈ s.threads) (hh : (s.procs pid).HandedOff) {e : Event} (ha : e.Allowed s)
    (hs : e.step s = some s') :
    (s'.procs pid).HandedOff ∨ (e = .downReturn ∧ s' = returned s pid) := by
  cases e with
  | kernel_thread q =>
    have hne : pid ≠ q := by
      rintro rfl
      exact ha hp
    simp only [Event.step, kernel_thread, enqueue] at hs
    split at hs
    · cases hs
    · obtain rfl := Option.some_inj.1 hs
      left
      show (update s.procs q _ pid).HandedOff
      rw [update_of_ne hne]
      exact hh
  | up =>
    obtain ⟨q, hc, hq⟩ := mem_current ha
    simp only [Event.step, hc, Option.bind_some] at hs
    rcases hw : s.wait_queue with _ | ⟨w, rest⟩
    · unfold up at hs
      rw [hw] at hs
      obtain rfl := Option.some_inj.1 hs
      exact Or.inl hh
    · rw [up_handoff h hc hq hw] at hs
      obtain rfl := Option.some_inj.1 hs
      left
      show (update s.procs w _ pid).HandedOff
      have hne : pid ≠ w := by
        rintro rfl
        have hsl := (h.thread hp).waiting.1 (by rw [hw]; exact List.mem_cons_self)
        exact ProcState.not_sleeping.2 hh.2 hsl
      rw [update_of_ne hne]
      exact hh
  | down =>
    obtain ⟨q, hc, hq⟩ := mem_current ha
    have hne : pid ≠ q := by
      rintro rfl
      exact hh.1 hq
    simp only [Event.step, hc, Option.bind_some, down, wait_current_set] at hs
    split at hs
    · obtain rfl := Option.some_inj.1 hs
      exact Or.inl hh
    · split at hs
      · cases hs
      · obtain rfl := Option.some_inj.1 hs
        left
        show (update s.procs q _ pid).HandedOff
        rw [update_of_ne hne]
        exact hh
  | try_down =>
    obtain ⟨q, hc, -⟩ := mem_current ha
    simp only [Event.step, hc, Option.map_some, try_down] at hs
    left
    split at hs
    · obtain rfl := Option.some_inj.1 hs
      exact hh
    · obtain rfl := Option.some_inj.1 hs
      exact hh
  | downSchedule =>
    obtain ⟨q, hc, hq⟩ := mem_current ha
    simp only [Event.step, hc, Option.bind_some, downSchedule] at hs
    obtain ⟨s1, h1, -, -, hprocs, -⟩ := schedule_ok (h.scheduled hc hq)
    rw [hs, Option.some_inj] at h1
    left
    rw [h1, hprocs, procs_setProc]
    split
    · next he =>
      rw [← he]
      exact ⟨nofun, hh.2⟩
    · exact hh
  | downReturn =>
    obtain ⟨q, hc, hq⟩ := mem_current ha
    simp only [Event.step, hc, Option.bind_some] at hs
    obtain ⟨-, he⟩ := downReturn_eq h hc hq
    rw [he] at hs
    obtain rfl := Option.some_inj.1 hs
    by_cases hne : pid = q
    · rw [hne]
      exact Or.inr ⟨rfl, rfl⟩
    · left
      show (update s.procs q _ pid).HandedOff
      rw [update_of_ne hne]
      exact hh
  | schedule =>
    obtain ⟨s1, h1, -, -, hprocs, -⟩ := schedule_ok h.toQueuesOk
    have hs' : schedule s = some s' := hs
    rw [hs', Option.some_inj] at h1
    left
    rw [h1, hprocs]
    exact hh
  | do_kill q =>
    have hs' : do_kill s q = some s' := hs
    have hws := (h.thread ha).not_interrupted
    unfold do_kill at hs'
    simp only [hws, ne_eq, not_true_eq_false, if_false] at hs'
    left
    split at hs'
    · obtain rfl := Option.some_inj.1 hs'
      rw [procs_setProc]
      split
      · next he =>
        rw [← he]
        exact hh
      · exact hh
    · obtain rfl := Option.some_inj.1 hs'
      exact hh

/-- Each call of `schedule` brings a thread one place on in the run queue. -/
theorem schedule_next {s s' : Sys} {pid : Pid} {pre post : List Pid}
    (hr : s.run_list = pre ++ pid :: post) (hs : schedule s = some s') :
    (pre = [] ∧ s'.current = some pid) ∨ ∃ post', s'.run_list = pre.tail ++ pid :: post' := by
  obtain ⟨l, hl⟩ : ∃ l, s' = { s with
      run_list := (s.run_list ++ l).tail, current := (s.run_list ++ l).head? } := by
    obtain ⟨s1, h1, rfl⟩ := Option.map_eq_some_iff.1 hs
    have hq : ∃ l, s1 = { s with run_list := s.run_list ++ l } := by
      split at h1
      · obtain rfl := Option.some_inj.1 h1
        exact ⟨[], by rw [List.append_nil]⟩
      · next q _ =>
        unfold enqueue at h1
        split at h1
        · split at h1
          · cases h1
          · obtain rfl := Option.some_inj.1 h1
            exact ⟨[q], rfl⟩
        · obtain rfl := Option.some_inj.1 h1
          exact ⟨[], by rw [List.append_nil]⟩
    obtain ⟨l, rfl⟩ := hq
    exact ⟨l, rfl⟩
  rw [hl, hr]
  cases pre with
  | nil => exact Or.inl ⟨rfl, rfl⟩
  | cons a pre =>
    right
    refine ⟨post ++ l, ?_⟩
    show (a :: pre ++ pid :: post ++ l).tail = pre ++ pid :: (post ++ l)
    simp only [List.cons_append, List.tail_cons, List.append_assoc]

/-- A list of events that the code allows one after the other. -/
def runEvents (s : Sys) (es : List Event) : Option Sys :=
  es.foldlM (fun s e => if e.Allowed s then e.step s else none) s

theorem reachable_run {value : Int} {procs : Pid → Proc} {es : List Event} {s s' : Sys}
    (h : Reachable value procs s) (hr : runEvents s es = some s') : Reachable value procs s' := by
  refine @machine.invariant_of_partialRun _ _ _ (Reachable value procs) ?_ _ _ _ h hr
  intro s1 e s2 h1 hs
  split at hs
  · next ha => exact h1.step e ha hs
  · cases hs

/-- One thread waits, is killed and woken, and goes on after the other gives way. -/
def waitAndWake : List Event :=
  [.kernel_thread 1, .kernel_thread 2, .schedule, .down, .downSchedule, .do_kill 1, .up, .schedule,
    .downReturn]

end nehcpu.kernel.semaphore
