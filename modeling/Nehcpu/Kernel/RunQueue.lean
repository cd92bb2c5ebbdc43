-- What the run queue keeps in every order of wake-ups, switches, clock interrupts, sleeps and exits:
-- it holds the processes that can run and do not, in the order in which they came.
import Mathlib.Data.List.Nodup
import Nehcpu.Lib.Fallible
import Nehcpu.Kernel.Sched

namespace nehcpu.kernel.sched

open Function nehcpu.fallible

/-! ## The invariant -/

/-- The queue holds the runnable processes but those in `out`: the current one, and in the middle of
a wake-up or a switch the one that is about to come in. -/
structure QueueOk (out : Pid → Prop) (s : Sys) : Prop where
  linked : ∀ pid, pid ≠ idleproc →
    (pid ∈ s.rq.run_list ↔ (s.procs pid).state = .PROC_RUNNABLE ∧ ¬ out pid)
  idle : idleproc ∉ s.rq.run_list
  nodup : s.rq.run_list.Nodup
  num : s.rq.proc_num = s.rq.run_list.length
  order : enqueued s.log = picked s.log ++ s.rq.run_list
  slices : ∀ pid, 0 ≤ (s.procs pid).time_slice
  queued : ∀ pid ∈ s.rq.run_list, 1 ≤ (s.procs pid).time_slice ∧
    (s.procs pid).time_slice ≤ s.rq.max_time_slice ∧ (s.procs pid).rq = true
  max : 1 ≤ s.rq.max_time_slice

/-- The failures that are not those of the queue. -/
def NotQueue (e : Failed) : Prop := e ≠ .enqueue ∧ e ≠ .dequeue

section

variable {s : Sys} {o : Obs}

theorem enqueued_logged : enqueued (s.logged o).log = enqueued s.log ++ enqueued [o] :=
  List.filterMap_append ..

theorem picked_logged : picked (s.logged o).log = picked s.log ++ picked [o] :=
  List.filterMap_append ..

theorem procs_setProc (s : Sys) (pid q : Pid) (p : proc_struct) :
    (s.setProc pid p).procs q = if q = pid then p else s.procs q := update_apply _ _ _ _

end

theorem sched_init_procs {pid : Pid} (hp : pid ≠ idleproc) :
    sched_init.procs pid = alloc_proc := by
  unfold sched_init
  simp only [update_of_ne hp]

theorem sched_init_ok : QueueOk (· = sched_init.current) sched_init := by
  refine ⟨?_, ?_, List.nodup_nil, rfl, rfl, ?_, ?_, by decide⟩
  · intro pid hp
    rw [sched_init_procs hp]
    simp [sched_init, alloc_proc]
  · simp [sched_init]
  · intro pid
    by_cases hp : pid = idleproc
    · simp [sched_init, hp, alloc_proc]
    · simp [sched_init_procs hp, alloc_proc]
  · intro pid hp
    simp [sched_init] at hp

section

variable {out out' : Pid → Prop} {s s' : Sys} {pid : Pid}

theorem QueueOk.congr (h : QueueOk out s) (ho : ∀ q, out q ↔ out' q) (hp : s'.procs = s.procs)
    (hr : s'.rq = s.rq) (he : enqueued s'.log = enqueued s.log)
    (hk : picked s'.log = picked s.log) : QueueOk out' s' where
  linked q hq := by
    rw [hr, hp, ← ho]
    exact h.linked q hq
  idle := hr ▸ h.idle
  nodup := hr ▸ h.nodup
  num := hr ▸ h.num
  order := by
    rw [he, hk, hr]
    exact h.order
  slices q := hp ▸ h.slices q
  queued := by
    rw [hr, hp]
    exact h.queued
  max := hr ▸ h.max

/-- A process that is not in the queue changes. It may be runnable now, and then has to come in. -/
theorem QueueOk.setProc (h : QueueOk out s) (hn : pid ∉ s.rq.run_list) {p : proc_struct}
    (hp : 0 ≤ p.time_slice) : QueueOk (fun q => out q ∨ q = pid) (s.setProc pid p) where
  linked q hq := by
    rw [procs_setProc]
    show q ∈ s.rq.run_list ↔ _
    by_cases he : q = pid
    · rw [he]
      simp [hn]
    · rw [if_neg he, h.linked q hq]
      simp [he]
  idle := h.idle
  nodup := h.nodup
  num := h.num
  order := h.order
  slices q := by
    rw [procs_setProc]
    split
    · exact hp
    · exact h.slices q
  queued q hq := by
    have hne : q ≠ pid := fun he => hn (he ▸ hq)
    rw [procs_setProc, if_neg hne]
    exact h.queued q hq
  max := h.max

/-- A process that cannot run is not about to come in. -/
theorem QueueOk.not_runnable (h : QueueOk (fun q => out q ∨ q = pid) s)
    (hp : (s.procs pid).state ≠ .PROC_RUNNABLE) : QueueOk out s := by
  refine ⟨?_, h.idle, h.nodup, h.num, h.order, h.slices, h.queued, h.max⟩
  intro q hq
  rw [h.linked q hq]
  apply and_congr_right
  intro hr
  have hne : q ≠ pid := fun he => hp (he ▸ hr)
  simp [hne]

theorem QueueOk.not_mem (h : QueueOk out s) (ho : out pid) : pid ∉ s.rq.run_list := by
  intro hm
  have hne : pid ≠ idleproc := fun he => h.idle (he ▸ hm)
  exact ((h.linked pid hne).1 hm).2 ho

/-- What a step on the queue leaves as it was. -/
structure Beside (s s' : Sys) : Prop where
  current : s'.current = s.current
  timer_list : s'.timer_list = s.timer_list
  fired : fired s'.log = fired s.log

/-- The process comes in, with a time slice. -/
theorem QueueOk.enqueue (h : QueueOk out s) (hi : pid ≠ idleproc) (ho : out pid)
    (hr : (s.procs pid).state = .PROC_RUNNABLE) :
    ∃ s', RR_enqueue s pid = .ok s' ∧ QueueOk (fun q => out q ∧ q ≠ pid) s' ∧ Beside s s' ∧
      ∀ q, (s'.procs q).state = (s.procs q).state ∧
        (s'.procs q).wait_state = (s.procs q).wait_state := by
  have hn := h.not_mem ho
  unfold RR_enqueue
  simp only [if_neg hn]
  set slice := if (s.procs pid).time_slice = 0 ∨ (s.procs pid).time_slice > s.rq.max_time_slice
    then s.rq.max_time_slice else (s.procs pid).time_slice with hslice
  have hle : 1 ≤ slice ∧ slice ≤ s.rq.max_time_slice := by
    have h0 := h.slices pid
    have hm := h.max
    rw [hslice]
    split
    · exact ⟨hm, Int.le_refl _⟩
    · next hc =>
      rw [not_or] at hc
      omega
  refine ⟨_, rfl, ?_, ⟨rfl, rfl, ?_⟩, ?_⟩
  · refine ⟨?_, ?_, ?_, ?_, ?_, ?_, ?_, h.max⟩
    · intro q hq
      show q ∈ s.rq.run_list ++ [pid] ↔ (update s.procs pid _ q).state = _ ∧ _
      rw [List.mem_append, List.mem_singleton, h.linked q hq]
      by_cases he : q = pid
      · rw [he, update_self]
        simp [hr]
      · rw [update_of_ne he]
        simp [he]
    · show idleproc ∉ s.rq.run_list ++ [pid]
      rw [List.mem_append, List.mem_singleton, not_or]
      exact ⟨h.idle, hi.symm⟩
    · show (s.rq.run_list ++ [pid]).Nodup
      rw [List.nodup_append]
      refine ⟨h.nodup, List.nodup_singleton pid, ?_⟩
      rintro a ha b hb rfl
      rw [List.mem_singleton] at hb
      exact hn (hb ▸ ha)
    · show s.rq.proc_num + 1 = (s.rq.run_list ++ [pid]).length
      rw [List.length_append, List.length_singleton, h.num]
    · rw [enqueued_logged, picked_logged]
      show enqueued s.log ++ [pid] = (picked s.log ++ []) ++ (s.rq.run_list ++ [pid])
      rw [h.order, List.append_nil, List.append_assoc]
    · intro q
      show 0 ≤ (update s.procs pid _ q).time_slice
      by_cases he : q = pid
      · rw [he, update_self]
        exact Int.le_trans (by decide) hle.1
      · rw [update_of_ne he]
        exact h.slices q
    · intro q hq
      show 1 ≤ (update s.procs pid _ q).time_slice ∧ (update s.procs pid _ q).time_slice ≤ _ ∧
        (update s.procs pid _ q).rq = true
      by_cases he : q = pid
      · rw [he, update_self]
        exact ⟨hle.1, hle.2, rfl⟩
      · rw [update_of_ne he]
        rcases List.mem_append.1 hq with hm | hm
        · exact h.queued q hm
        · exact absurd (List.mem_singleton.1 hm) he
  · show fired (s.log ++ [_]) = fired s.log
    unfold fired
    rw [List.filterMap_append]
    exact List.append_nil _
  · intro q
    show (update s.procs pid _ q).state = _ ∧ (update s.procs pid _ q).wait_state = _
    by_cases he : q = pid
    · rw [he, update_self]
      exact ⟨rfl, rfl⟩
    · rw [update_of_ne he]
      exact ⟨rfl, rfl⟩

/-! ## `wakeup_proc` and `schedule` -/

/-- A wake-up fails for a zombie only. -/
theorem wakeup_proc_ends (h : QueueOk (· = s.current) s) (pid : Pid) :
    Ends (fun s' => QueueOk (· = s'.current) s' ∧ Beside s s' ∧
        (s'.procs pid).state = .PROC_RUNNABLE ∧
        (∀ q, q ≠ pid → (s'.procs q).state = (s.procs q).state) ∧
        ∀ q, (s'.procs q).wait_state = (s.procs q).wait_state ∨ (s'.procs q).wait_state = 0#32)
      (fun e => e = .wakeup ∧ (s.procs pid).state = .PROC_ZOMBIE) (wakeup_proc s pid) := by
  unfold wakeup_proc
  rw [ends_ite]
  refine ⟨fun hz => ⟨rfl, hz⟩, fun _ => ?_⟩
  rw [ends_ite]
  refine ⟨fun hr => ?_, fun hr => ?_⟩
  · set t := s.setProc pid { s.procs pid with state := .PROC_RUNNABLE, wait_state := 0#32 } with ht
    have hself : (t.procs pid).state = .PROC_RUNNABLE := by
      rw [ht, procs_setProc, if_pos rfl]
    have hother : ∀ q, q ≠ pid → (t.procs q).state = (s.procs q).state := by
      intro q hq
      rw [ht, procs_setProc, if_neg hq]
    have hwait : ∀ q, (t.procs q).wait_state = (s.procs q).wait_state ∨
        (t.procs q).wait_state = 0#32 := by
      intro q
      rw [ht, procs_setProc]
      split
      · exact Or.inr rfl
      · exact Or.inl rfl
    have hn : pid ∉ s.rq.run_list := by
      intro hm
      have hne : pid ≠ idleproc := fun he => h.idle (he ▸ hm)
      exact hr ((h.linked pid hne).1 hm).1
    have hset : QueueOk (fun q => q = s.current ∨ q = pid) t := h.setProc hn (h.slices pid)
    show Ends _ _ (if pid ≠ s.current then sched_class_enqueue t pid else .ok t)
    rw [ends_ite]
    constructor
    · intro hc
      unfold sched_class_enqueue
      by_cases hi : pid = idleproc
      · rw [if_neg (not_not.2 hi)]
        refine ⟨⟨?_, hset.idle, hset.nodup, hset.num, hset.order, hset.slices, hset.queued,
          hset.max⟩, ⟨rfl, rfl, rfl⟩, hself, hother, hwait⟩
        intro q hq
        rw [hset.linked q hq]
        have hne : q ≠ pid := fun he => hq (he.trans hi)
        simp [hne, ht, Sys.setProc]
      · rw [if_pos hi]
        obtain ⟨s', he, hok, hb, hst⟩ := hset.enqueue hi (Or.inr rfl) hself
        rw [he]
        refine ⟨hok.congr ?_ rfl rfl rfl rfl, ⟨hb.current, hb.timer_list, hb.fired⟩, ?_, ?_, ?_⟩
        · intro q
          rw [hb.current]
          show (q = s.current ∨ q = pid) ∧ q ≠ pid ↔ q = s.current
          constructor
          · rintro ⟨ho, hne⟩
            exact ho.resolve_right hne
          · rintro rfl
            exact ⟨Or.inl rfl, hc.symm⟩
        · rw [(hst pid).1]
          exact hself
        · intro q hq
          rw [(hst q).1]
          exact hother q hq
        · intro q
          rw [(hst q).2]
          exact hwait q
    · intro hc
      have hc : pid = s.current := not_not.1 hc
      refine ⟨hset.congr ?_ rfl rfl rfl rfl, ⟨rfl, rfl, rfl⟩, hself, hother, hwait⟩
      intro q
      rw [hc]
      exact or_self_iff
  · have hr : (s.procs pid).state = .PROC_RUNNABLE := not_not.1 hr
    exact ⟨h, ⟨rfl, rfl, rfl⟩, hr, fun _ _ => rfl, fun _ => Or.inl rfl⟩

/-- The head of the queue goes out, and nothing else changes. -/
theorem RR_dequeue_head {next : Pid} {rest : List Pid} (hl : s.rq.run_list = next :: rest)
    (hr : (s.procs next).rq = true) :
    ∃ s', RR_dequeue s next = .ok s' ∧ s'.procs = s.procs ∧
      s'.rq = ⟨rest, s.rq.proc_num - 1, s.rq.max_time_slice⟩ ∧
      enqueued s'.log = enqueued s.log ∧ picked s'.log = picked s.log ++ [next] ∧
      s'.timer_list = s.timer_list := by
  have hm : next ∈ s.rq.run_list := by
    rw [hl]
    exact List.mem_cons_self
  unfold RR_dequeue
  rw [if_pos ⟨hm, hr⟩]
  refine ⟨_, rfl, rfl, ?_, ?_, ?_, rfl⟩
  · show run_queue.mk (s.rq.run_list.erase next) _ _ = _
    rw [hl, List.erase_cons_head]
  · rw [enqueued_logged]
    exact List.append_nil _
  · rw [picked_logged]
    rfl

theorem proc_run_procs (s : Sys) (next q : Pid) :
    ((proc_run s next).procs q).state = (s.procs q).state ∧
    ((proc_run s next).procs q).time_slice = (s.procs q).time_slice ∧
    ((proc_run s next).procs q).rq = (s.procs q).rq := by
  have hp : (proc_run s next).procs q =
      if q = next then { s.procs next with runs := (s.procs next).runs + 1 } else s.procs q :=
    procs_setProc s next q _
  rw [hp]
  split
  · next he =>
    rw [he]
    exact ⟨rfl, rfl, rfl⟩
  · exact ⟨rfl, rfl, rfl⟩

/-- The head of the queue goes on. -/
theorem QueueOk.pick (h : QueueOk (fun _ => False) s) {next : Pid} {rest : List Pid}
    (hl : s.rq.run_list = next :: rest) :
    ∃ s', RR_dequeue s next = .ok s' ∧ QueueOk (· = next) (proc_run s' next) ∧
      s'.timer_list = s.timer_list := by
  have hm : next ∈ s.rq.run_list := by
    rw [hl]
    exact List.mem_cons_self
  have hsub : ∀ q ∈ rest, q ∈ s.rq.run_list := by
    intro q hq
    rw [hl]
    exact List.mem_cons_of_mem _ hq
  have hnodup := h.nodup
  rw [hl, List.nodup_cons] at hnodup
  obtain ⟨s', hs', hp, hq, he, hk, ht⟩ := RR_dequeue_head hl (h.queued next hm).2.2
  refine ⟨s', hs', ?_, ht⟩
  have hproc := proc_run_procs s' next
  have hrq : (proc_run s' next).rq = ⟨rest, s.rq.proc_num - 1, s.rq.max_time_slice⟩ := hq
  have hlog : (proc_run s' next).log = s'.log := rfl
  rw [hp] at hproc
  refine ⟨?_, ?_, ?_, ?_, ?_, ?_, ?_, ?_⟩
  · intro q hqi
    have hlink := h.linked q hqi
    rw [hl, List.mem_cons] at hlink
    rw [hrq, (hproc q).1]
    constructor
    · intro hm
      exact ⟨(hlink.1 (Or.inr hm)).1, fun hqn => hnodup.1 (hqn ▸ hm)⟩
    · rintro ⟨hr, hqn⟩
      exact (hlink.2 ⟨hr, id⟩).resolve_left hqn
  · rw [hrq]
    exact fun hi => h.idle (hsub _ hi)
  · rw [hrq]
    exact hnodup.2
  · rw [hrq, h.num, hl]
    simp
  · rw [hrq, hlog, he, hk, h.order, hl]
    simp
  · intro q
    rw [(hproc q).2.1]
    exact h.slices q
  · intro q hqr
    rw [hrq] at hqr ⊢
    rw [(hproc q).2.1, (hproc q).2.2]
    exact h.queued q (hsub q hqr)
  · rw [hrq]
    exact h.max

/-- The current process is now one of the others. -/
theorem QueueOk.no_current (h : QueueOk (· = s.current) s)
    (hc : (s.procs s.current).state = .PROC_RUNNABLE → s.current = idleproc) :
    QueueOk (fun _ => False) s := by
  refine ⟨?_, h.idle, h.nodup, h.num, h.order, h.slices, h.queued, h.max⟩
  intro q hq
  rw [h.linked q hq]
  apply and_congr_right
  intro hr
  have hne : q ≠ s.current := by
    rintro rfl
    exact hq (hc hr)
  simp [hne]

theorem QueueOk.setCurrent (h : QueueOk (· = s.current) s) {p : proc_struct}
    (hp : 0 ≤ p.time_slice) : QueueOk (· = s.current) (s.setProc s.current p) :=
  QueueOk.congr (h.setProc (h.not_mem rfl) hp) (fun _ => or_self_iff) rfl rfl rfl rfl

theorem giveWay_ok (h : QueueOk (· = s.current) s) :
    ∃ s', giveWay s = .ok s' ∧ QueueOk (fun _ => False) s' ∧ s'.timer_list = s.timer_list := by
  unfold giveWay
  extract_lets p t
  have hset : QueueOk (· = t.current) t := h.setCurrent (h.slices s.current)
  by_cases hr : (t.procs t.current).state = .PROC_RUNNABLE
  · rw [if_pos hr]
    unfold sched_class_enqueue
    by_cases hi : t.current = idleproc
    · rw [if_neg (not_not.2 hi)]
      exact ⟨t, rfl, hset.no_current fun _ => hi, rfl⟩
    · rw [if_pos hi]
      obtain ⟨s', he, hok, hb, -⟩ := hset.enqueue hi rfl hr
      refine ⟨s', he, hok.congr ?_ rfl rfl rfl rfl, hb.timer_list⟩
      intro q
      simp
  · rw [if_neg hr]
    exact ⟨t, rfl, hset.no_current fun hr' => absurd hr' hr, rfl⟩

theorem switch_ok (h : QueueOk (fun _ => False) s) :
    ∃ s', switch s = .ok s' ∧ QueueOk (· = s'.current) s' ∧ s'.timer_list = s.timer_list := by
  unfold switch RR_pick_next
  cases hl : s.rq.run_list with
  | nil =>
    have hrun := h.setProc h.idle (p := { s.procs idleproc with
      runs := (s.procs idleproc).runs + 1 }) (h.slices idleproc)
    exact ⟨_, rfl, QueueOk.congr hrun (fun q => by simp; rfl) rfl rfl rfl rfl, rfl⟩
  | cons next rest =>
    obtain ⟨t, ht, hok, htl⟩ := h.pick hl
    refine ⟨proc_run t next, ?_, hok, htl⟩
    show (RR_dequeue s next >>= fun s => pure (proc_run s next)) = _
    rw [ht]
    rfl

/-- `schedule` never fails. -/
theorem schedule_ok (h : QueueOk (· = s.current) s) :
    ∃ s', schedule s = .ok s' ∧ QueueOk (· = s'.current) s' ∧ s'.timer_list = s.timer_list := by
  obtain ⟨t, ht, hok, htl⟩ := giveWay_ok h
  obtain ⟨s', hs', hok', htl'⟩ := switch_ok hok
  refine ⟨s', ?_, hok', htl'.trans htl⟩
  unfold schedule
  rw [ht]
  exact hs'

/-! ## The clock interrupt -/

/-- What firing timers does: their processes can run, and the others stay as they were. -/
structure Fired (l : List timer_t) (s s' : Sys) : Prop where
  log : fired s'.log = fired s.log ++ l.map (·.addr)
  woken : ∀ t ∈ l, (s'.procs t.proc).state = .PROC_RUNNABLE
  others : ∀ pid, (∀ t ∈ l, t.proc ≠ pid) → (s'.procs pid).state = (s.procs pid).state
  wait : ∀ pid, (s'.procs pid).wait_state = (s.procs pid).wait_state ∨
    (s'.procs pid).wait_state = 0#32

theorem Fired.nil (s : Sys) : Fired [] s s :=
  ⟨(List.append_nil _).symm, fun _ ht => absurd ht List.not_mem_nil, fun _ _ => rfl,
    fun _ => Or.inl rfl⟩

/-- The timer has no time left. -/
def timer_t.due (timer : timer_t) : Bool := timer.expires == 0#32

/-- The process of a timer cannot be woken: it is a zombie, or it waits for something that a timer
must not break off. -/
def Stuck (s : Sys) (pid : Pid) (e : Failed) : Prop :=
  (e = .wakeup ∧ (s.procs pid).state = .PROC_ZOMBIE) ∨
  (e = .wait_state ∧ (s.procs pid).wait_state ≠ 0#32 ∧
    (s.procs pid).wait_state &&& WT_INTERRUPTED = 0#32)

theorem Stuck.notQueue {e : Failed} (h : Stuck s pid e) : NotQueue e := by
  rcases h with ⟨rfl, -⟩ | ⟨rfl, -⟩
  · exact ⟨by decide, by decide⟩
  · exact ⟨by decide, by decide⟩

theorem Fired.append {l m : List timer_t} {u : Sys} (h : Fired l s s') (h' : Fired m s' u) :
    Fired (l ++ m) s u where
  log := by rw [h'.log, h.log, List.map_append, List.append_assoc]
  woken t ht := by
    by_cases hm : ∃ t' ∈ m, t'.proc = t.proc
    · obtain ⟨t', hm, he⟩ := hm
      rw [← he]
      exact h'.woken t' hm
    · rw [h'.others t.proc fun t' ht' he => hm ⟨t', ht', he⟩]
      rcases List.mem_append.1 ht with hl | hm'
      · exact h.woken t hl
      · exact absurd ⟨t, hm', rfl⟩ hm
  others pid hp := by
    rw [h'.others pid fun t ht => hp t (List.mem_append_right _ ht)]
    exact h.others pid fun t ht => hp t (List.mem_append_left _ ht)
  wait pid := by
    rcases h'.wait pid with he | he
    · rw [he]
      exact h.wait pid
    · exact Or.inr he

/-- What is stuck after some timers have fired was stuck before. -/
theorem Fired.stuck {l : List timer_t} {e : Failed} (h : Fired l s s') (hs : Stuck s' pid e) :
    Stuck s pid e := by
  rcases hs with ⟨he, hz⟩ | ⟨he, hw, hm⟩
  · refine Or.inl ⟨he, ?_⟩
    rw [← hz]
    symm
    apply h.others
    rintro t ht rfl
    rw [h.woken t ht] at hz
    cases hz
  · have hwait := (h.wait pid).resolve_right hw
    rw [hwait] at hw hm
    exact Or.inr ⟨he, hw, hm⟩

theorem eraseTimer_head {timer : timer_t} (rest : List timer_t) (he : timer.expires = 0#32) :
    eraseTimer timer.addr (timer :: rest) = rest := by
  cases rest <;> simp [eraseTimer, he]

theorem fireTimer_ends {timer : timer_t} {rest : List timer_t} (h : QueueOk (· = s.current) s)
    (hl : s.timer_list = timer :: rest) (he : timer.expires = 0#32) :
    Ends (fun s' => QueueOk (· = s'.current) s' ∧ s'.timer_list = rest ∧ Fired [timer] s s')
      (Stuck s timer.proc) (fireTimer s timer) := by
  unfold fireTimer
  rw [ends_ite]
  refine ⟨fun hw => Or.inr ⟨rfl, hw.1, hw.2⟩, fun _ => ?_⟩
  rw [ends_bind]
  apply (wakeup_proc_ends h timer.proc).mono
  · rintro s' ⟨hok, hb, hself, hother, hwait⟩
    set u := del_timer (s'.logged (.fire timer.addr)) timer.addr with hu
    have hlog : u.log = (s'.logged (.fire timer.addr)).log := rfl
    refine ⟨QueueOk.congr hok (fun _ => Iff.rfl) rfl rfl ?_ ?_, ?_, ?_, ?_, ?_, hwait⟩
    · rw [hlog, enqueued_logged]
      exact List.append_nil _
    · rw [hlog, picked_logged]
      exact List.append_nil _
    · show eraseTimer timer.addr s'.timer_list = rest
      rw [hb.timer_list, hl]
      exact eraseTimer_head rest he
    · show fired (s'.log ++ [_]) = _
      rw [← hb.fired]
      exact List.filterMap_append ..
    · intro t ht
      rw [List.mem_singleton] at ht
      rw [ht]
      exact hself
    · intro q hq
      exact hother q (hq timer (List.mem_singleton_self _)).symm
  · exact fun e he => Or.inl he

/-- The loop of `run_timer_list`: the timers at the head with no time left fire, and it fails only
where one of their processes is stuck. -/
theorem fireTimers_ends {l : List timer_t} (h : QueueOk (· = s.current) s)
    (hl : s.timer_list = l) :
    Ends (fun s' => QueueOk (· = s'.current) s' ∧
        s'.timer_list = l.dropWhile timer_t.due ∧
        Fired (l.takeWhile timer_t.due) s s')
      (fun e => ∃ t ∈ l.takeWhile timer_t.due, Stuck s t.proc e) (fireTimers s l) := by
  induction l generalizing s with
  | nil => exact ⟨h, hl, Fired.nil s⟩
  | cons timer rest ih =>
    unfold fireTimers
    rw [ends_ite]
    refine ⟨fun he => ?_, fun he => ?_⟩
    · have hb : timer.due = true := beq_iff_eq.2 he
      rw [List.takeWhile_cons_of_pos hb, List.dropWhile_cons_of_pos hb, ends_bind]
      apply (fireTimer_ends h hl he).mono
      · rintro s' ⟨hok, hl', hf⟩
        apply (ih hok hl').mono
        · rintro u ⟨hok', hl'', hf'⟩
          exact ⟨hok', hl'', hf.append hf'⟩
        · rintro e ⟨t, ht, hs⟩
          exact ⟨t, List.mem_cons_of_mem _ ht, hf.stuck hs⟩
      · exact fun e hs => ⟨timer, List.mem_cons_self, hs⟩
    · have hb : ¬ timer.due = true := fun hb => he (beq_iff_eq.1 hb)
      rw [List.takeWhile_cons_of_neg hb, List.dropWhile_cons_of_neg hb]
      exact ⟨h, hl, Fired.nil s⟩

theorem proc_tick_ok (h : QueueOk (· = s.current) s) :
    QueueOk (· = (sched_class_proc_tick s s.current).current)
      (sched_class_proc_tick s s.current) := by
  have h0 := h.slices s.current
  unfold sched_class_proc_tick
  split
  · apply h.setCurrent
    show 0 ≤ if (s.procs s.current).time_slice > 0 then _ else _
    split <;> omega
  · exact h.setCurrent h0

theorem tickTimers_ends (h : QueueOk (· = s.current) s) :
    Ends (fun s' => QueueOk (· = s'.current) s') NotQueue (tickTimers s) := by
  unfold tickTimers
  split
  · exact h
  · rw [ends_ite]
    refine ⟨fun _ => ?_, fun _ => ⟨by decide, by decide⟩⟩
    extract_lets list
    have hset : QueueOk (· = s.current) { s with timer_list := list } :=
      h.congr (fun _ => Iff.rfl) rfl rfl rfl rfl
    apply (fireTimers_ends hset rfl).mono
    · exact fun s' hs' => hs'.1
    · rintro e ⟨t, -, hs⟩
      exact hs.notQueue

theorem run_timer_list_ends (h : QueueOk (· = s.current) s) :
    Ends (fun s' => QueueOk (· = s'.current) s') NotQueue (run_timer_list s) := by
  unfold run_timer_list
  rw [ends_bind]
  exact (tickTimers_ends h).mono (fun s' hs' => proc_tick_ok hs') fun _ he => he

/-! ## Runs -/

theorem add_timer_ends (h : QueueOk (· = s.current) s) (timer : timer_t) :
    Ends (fun s' => QueueOk (· = s'.current) s') NotQueue (add_timer s timer) := by
  unfold add_timer
  rw [ends_ite]
  exact ⟨fun _ => h.congr (fun _ => Iff.rfl) rfl rfl rfl rfl, fun _ => ⟨by decide, by decide⟩⟩

/-- Every allowed event keeps the queue in order, and no assertion on the queue fails. -/
theorem step_ends (h : QueueOk (· = s.current) s) (e : Event) (ha : e.Allowed s) :
    Ends (fun s' => QueueOk (· = s'.current) s') NotQueue (e.step s) := by
  have h0 := h.slices s.current
  cases e with
  | sleep => exact h.setCurrent h0
  | setWait ws => exact h.setCurrent h0
  | exit => exact h.setCurrent h0
  | reap pid =>
    have hz : (s.procs pid).state = .PROC_ZOMBIE := ha.1
    have hn : pid ∉ s.rq.run_list := by
      intro hm
      have hne : pid ≠ idleproc := fun he => h.idle (he ▸ hm)
      have hr := ((h.linked pid hne).1 hm).1
      rw [hz] at hr
      cases hr
    have hok := h.setProc hn (p := alloc_proc) (Int.le_refl 0)
    apply hok.not_runnable
    rw [procs_setProc, if_pos rfl]
    decide
  | wakeup_proc pid =>
    apply (wakeup_proc_ends h pid).mono
    · exact fun s' hs' => hs'.1
    · rintro e ⟨rfl, -⟩
      exact ⟨by decide, by decide⟩
  | schedule =>
    obtain ⟨s', hs', hok, -⟩ := schedule_ok h
    show Ends _ _ (schedule s)
    rw [hs']
    exact hok
  | run_timer_list => exact run_timer_list_ends h
  | add_timer timer => exact add_timer_ends h timer
  | del_timer addr => exact h.congr (fun _ => Iff.rfl) rfl rfl rfl rfl
  | do_sleep addr time =>
    show Ends _ _ (do_sleep s addr time)
    unfold do_sleep
    rw [ends_ite]
    refine ⟨fun _ => h, fun _ => add_timer_ends ?_ _⟩
    exact h.setCurrent h0

end

/-- After every sequence of allowed events: a process other than the idle one is in the run queue,
once, just when it is runnable and not the current one; `proc_num` is the length; the processes are
picked in the order in which they came in; each has a time slice; the idle process never comes in;
and no assertion of the queue stops the kernel. -/
theorem run_queue_ok (es : List Event)
    (ha : AllAllowed Event.step Event.Allowed sched_init es) :
    (∀ s, runSteps Event.step sched_init es = .ok s →
      (∀ pid, pid ≠ idleproc → (pid ∈ s.rq.run_list ↔
        (s.procs pid).state = .PROC_RUNNABLE ∧ pid ≠ s.current)) ∧
      s.rq.run_list.Nodup ∧
      s.rq.proc_num = s.rq.run_list.length ∧
      enqueued s.log = picked s.log ++ s.rq.run_list ∧
      (∀ pid ∈ s.rq.run_list,
        1 ≤ (s.procs pid).time_slice ∧ (s.procs pid).time_slice ≤ s.rq.max_time_slice) ∧
      idleproc ∉ s.rq.run_list) ∧
    runSteps Event.step sched_init es ≠ .error .enqueue ∧
    runSteps Event.step sched_init es ≠ .error .dequeue := by
  have hstep : ∀ (_ : Unit) s e, QueueOk (· = s.current) s → Event.Allowed s e →
      Ends (fun s' => QueueOk (· = s'.current) s') NotQueue (Event.step s e) :=
    fun _ s e h hae => step_ends h e hae
  have hrun : Ends (fun s => QueueOk (· = s.current) s) NotQueue
      (runSteps Event.step sched_init es) :=
    @ends_run _ _ _ _ _ _ (fun u _ _ => u) _ _ hstep () _ _ sched_init_ok ha
  refine ⟨fun s hs => ?_, fun he => (hrun.error he).1 rfl, fun he => (hrun.error he).2 rfl⟩
  have hok := hrun.ok hs
  exact ⟨hok.linked, hok.nodup, hok.num, hok.order,
    fun pid hp => ⟨(hok.queued pid hp).1, (hok.queued pid hp).2.1⟩, hok.idle⟩

/-- Two processes start, one runs and sleeps, the other runs, exits and is reaped. -/
theorem run_queue_ok_two : runSteps Event.step sched_init [.wakeup_proc 1, .wakeup_proc 2, .schedule,
    .run_timer_list, .sleep, .schedule, .exit, .wakeup_proc 1, .schedule, .reap 2] ≠
    .error .enqueue :=
  (run_queue_ok _ (by decide +kernel)).2.1

end nehcpu.kernel.sched
