-- No process that can run waits for ever: it runs after those that stood before it in the run
-- queue, and each of them is asked to give way when its time slice is over.
import Nehcpu.Kernel.RunQueue

namespace nehcpu.kernel.sched

open Function nehcpu.fallible

/-! ## Time slices -/

/-- No time slice is longer than the longest. -/
structure Low (s : Sys) : Prop where
  max : s.rq.max_time_slice = 20
  slices : ∀ pid, (s.procs pid).time_slice ≤ 20

/-- A process that runs has time left, or is asked to give way. -/
structure Turns (s : Sys) : Prop extends Low s where
  running : s.current ≠ idleproc →
    (s.procs s.current).need_resched = true ∨ 1 ≤ (s.procs s.current).time_slice

/-- The clock ticks until the process that runs is asked to give way. -/
def turnLeft (s : Sys) : Int :=
  if (s.procs s.current).need_resched then 0
  else if s.current = idleproc then 1
  else (s.procs s.current).time_slice

theorem turnLeft_le {s : Sys} (h : Low s) : turnLeft s ≤ 20 := by
  have hs := h.slices s.current
  unfold turnLeft
  split
  · decide
  · split
    · decide
    · exact hs

theorem turnLeft_nonneg {out : Pid → Prop} {s : Sys} (h : QueueOk out s) : 0 ≤ turnLeft s := by
  have hs := h.slices s.current
  unfold turnLeft
  split
  · decide
  · split
    · decide
    · exact hs

theorem sched_init_turns : Turns sched_init := by
  refine ⟨⟨rfl, fun pid => ?_⟩, fun hne => absurd rfl hne⟩
  by_cases hp : pid = idleproc
  · simp [sched_init, hp, alloc_proc]
  · simp [sched_init_procs hp, alloc_proc]

/-! ## What the steps leave -/

/-- Processes come in behind those of the queue, and none goes out. -/
structure Behind (s s' : Sys) : Prop where
  current : s'.current = s.current
  list : s.rq.run_list <+: s'.rq.run_list
  picked : picked s'.log = picked s.log
  low : Low s → Low s'

/-- The turn of the current process goes on too. -/
structure Alongside (s s' : Sys) : Prop extends Behind s s' where
  slice : (s'.procs s.current).time_slice = (s.procs s.current).time_slice
  resched : (s'.procs s.current).need_resched = (s.procs s.current).need_resched

section

variable {s s' t : Sys} {pid : Pid}

theorem Alongside.refl (s : Sys) : Alongside s s :=
  ⟨⟨rfl, List.prefix_rfl, rfl, id⟩, rfl, rfl⟩

theorem Alongside.trans (h : Alongside s t) (h' : Alongside t s') : Alongside s s' := by
  have hslice := h'.slice
  have hresched := h'.resched
  rw [h.current] at hslice hresched
  exact ⟨⟨h'.current.trans h.current, h.list.trans h'.list, h'.picked.trans h.picked,
    fun hl => h'.low (h.low hl)⟩, hslice.trans h.slice, hresched.trans h.resched⟩

theorem Alongside.turnLeft (h : Alongside s s') : turnLeft s' = turnLeft s := by
  unfold sched.turnLeft
  rw [h.current, h.slice, h.resched]

theorem Alongside.turns (h : Alongside s s') (ht : Turns s) : Turns s' := by
  refine ⟨h.low ht.toLow, ?_⟩
  rw [h.current, h.slice, h.resched]
  exact ht.running

theorem Low.setProc (h : Low s) {p : proc_struct} (hp : p.time_slice ≤ 20) :
    Low (s.setProc pid p) := by
  refine ⟨h.max, fun q => ?_⟩
  rw [procs_setProc]
  split
  · exact hp
  · exact h.slices q

/-- A process changes, but not in its time. -/
theorem Alongside.setProc {p : proc_struct} (hs : p.time_slice = (s.procs pid).time_slice)
    (hr : p.need_resched = (s.procs pid).need_resched) : Alongside s (s.setProc pid p) := by
  refine ⟨⟨rfl, List.prefix_rfl, rfl, fun h => h.setProc ?_⟩, ?_, ?_⟩
  · rw [hs]
    exact h.slices pid
  · rw [procs_setProc]
    split
    · next he => rw [hs, he]
    · rfl
  · rw [procs_setProc]
    split
    · next he => rw [hr, he]
    · rfl

/-- Another process changes. -/
theorem Alongside.setOther {p : proc_struct} (hp : p.time_slice ≤ 20) (hne : pid ≠ s.current) :
    Alongside s (s.setProc pid p) := by
  refine ⟨⟨rfl, List.prefix_rfl, rfl, fun h => h.setProc hp⟩, ?_, ?_⟩
  · rw [procs_setProc, if_neg hne.symm]
  · rw [procs_setProc, if_neg hne.symm]

theorem RR_enqueue_behind (h : RR_enqueue s pid = .ok s') :
    Behind s s' ∧ ∀ q, q ≠ pid → s'.procs q = s.procs q := by
  unfold RR_enqueue at h
  extract_lets p slice at h
  split at h
  · cases h
  · obtain rfl := Except.ok.inj h
    refine ⟨⟨rfl, List.prefix_append _ _, ?_, fun hl => ⟨hl.max, ?_⟩⟩,
      fun q hq => update_of_ne hq _ _⟩
    · rw [picked_logged]
      exact List.append_nil _
    · have hslice : slice ≤ 20 := by
        have hmax := hl.max
        simp only [slice]
        split <;> omega
      have hset : Low (s.setProc pid { p with time_slice := slice, rq := true }) :=
        hl.setProc hslice
      exact hset.slices

theorem sched_class_enqueue_behind (h : sched_class_enqueue s pid = .ok s') :
    Behind s s' ∧ ∀ q, q ≠ pid → s'.procs q = s.procs q := by
  unfold sched_class_enqueue at h
  split at h
  · exact RR_enqueue_behind h
  · obtain rfl := Except.ok.inj h
    exact ⟨(Alongside.refl s).toBehind, fun _ _ => rfl⟩

theorem wakeup_proc_alongside (h : wakeup_proc s pid = .ok s') : Alongside s s' := by
  unfold wakeup_proc at h
  extract_lets p at h
  split at h
  · cases h
  split at h
  · have hset : Alongside s
        (s.setProc pid { p with state := .PROC_RUNNABLE, wait_state := 0#32 }) :=
      Alongside.setProc rfl rfl
    refine hset.trans ?_
    split at h
    · next hne =>
      obtain ⟨hb, hq⟩ := sched_class_enqueue_behind h
      have hself := hq s.current (Ne.symm hne)
      exact ⟨hb, congrArg proc_struct.time_slice hself, congrArg proc_struct.need_resched hself⟩
    · obtain rfl := Except.ok.inj h
      exact Alongside.refl _
  · obtain rfl := Except.ok.inj h
    exact Alongside.refl s

theorem fireTimer_alongside {timer : timer_t} (h : fireTimer s timer = .ok s') :
    Alongside s s' := by
  unfold fireTimer at h
  extract_lets ws at h
  split at h
  · cases h
  · cases hw : wakeup_proc s timer.proc with
    | error e =>
      rw [hw] at h
      cases h
    | ok t =>
      rw [hw] at h
      obtain rfl := Except.ok.inj h
      refine (wakeup_proc_alongside hw).trans
        ⟨⟨rfl, List.prefix_rfl, ?_, fun hl => ⟨hl.max, hl.slices⟩⟩, rfl, rfl⟩
      exact picked_logged.trans (List.append_nil _)

theorem fireTimers_alongside {l : List timer_t} (h : fireTimers s l = .ok s') :
    Alongside s s' := by
  induction l generalizing s with
  | nil =>
    obtain rfl := Except.ok.inj h
    exact Alongside.refl s
  | cons timer rest ih =>
    unfold fireTimers at h
    split at h
    · cases ht : fireTimer s timer with
      | error e =>
        rw [ht] at h
        cases h
      | ok t =>
        rw [ht] at h
        exact (fireTimer_alongside ht).trans (ih h)
    · obtain rfl := Except.ok.inj h
      exact Alongside.refl s

theorem tickTimers_alongside (h : tickTimers s = .ok s') : Alongside s s' := by
  unfold tickTimers at h
  split at h
  · obtain rfl := Except.ok.inj h
    exact Alongside.refl s
  · split at h
    · extract_lets list at h
      have hset : Alongside s { s with timer_list := list } :=
        ⟨⟨rfl, List.prefix_rfl, rfl, fun hl => ⟨hl.max, hl.slices⟩⟩, rfl, rfl⟩
      exact hset.trans (fireTimers_alongside h)
    · cases h

theorem add_timer_alongside {timer : timer_t} (h : add_timer s timer = .ok s') :
    Alongside s s' := by
  unfold add_timer at h
  split at h
  · obtain rfl := Except.ok.inj h
    exact ⟨⟨rfl, List.prefix_rfl, rfl, fun hl => ⟨hl.max, hl.slices⟩⟩, rfl, rfl⟩
  · cases h

/-! ## The clock -/

/-- The current process after a tick. -/
def ticked (p : proc_struct) : proc_struct :=
  let slice := if p.time_slice > 0 then p.time_slice - 1 else p.time_slice
  { p with time_slice := slice, need_resched := if slice = 0 then true else p.need_resched }

theorem ticked_le {p : proc_struct} (h : p.time_slice ≤ 20) : (ticked p).time_slice ≤ 20 := by
  show (if p.time_slice > 0 then _ else _) ≤ (20 : Int)
  split <;> omega

theorem ticked_asked {p : proc_struct} (h : p.need_resched = true) :
    (ticked p).need_resched = true := by
  simp [ticked, h]

theorem ticked_fresh {p : proc_struct} (h : p.need_resched = false) (h1 : 1 ≤ p.time_slice) :
    (ticked p).time_slice = p.time_slice - 1 ∧
      (ticked p).need_resched = decide (p.time_slice = 1) := by
  have hslice : (ticked p).time_slice = p.time_slice - 1 := if_pos h1
  refine ⟨hslice, ?_⟩
  show (if (ticked p).time_slice = 0 then true else p.need_resched) = _
  rw [hslice, h]
  by_cases hone : p.time_slice = 1
  · simp [hone]
  · have hne : p.time_slice - 1 ≠ 0 := by omega
    simp [hone, hne]

/-- A tick is one of the turn, if the process has not been asked before. -/
theorem proc_tick_turns (ht : Turns s) :
    Turns (sched_class_proc_tick s s.current) ∧
      turnLeft (sched_class_proc_tick s s.current) =
        if (s.procs s.current).need_resched then 0 else turnLeft s - 1 := by
  have hlow := ht.slices s.current
  unfold sched_class_proc_tick
  split
  · next hne =>
    have hrun := ht.running hne
    show Turns (s.setProc s.current (ticked (s.procs s.current))) ∧
      turnLeft (s.setProc s.current (ticked (s.procs s.current))) = _
    have hself : (s.setProc s.current (ticked (s.procs s.current))).procs s.current =
        ticked (s.procs s.current) := by rw [procs_setProc, if_pos rfl]
    have hset : Low (s.setProc s.current (ticked (s.procs s.current))) :=
      ht.toLow.setProc (ticked_le hlow)
    have hcur : (s.setProc s.current (ticked (s.procs s.current))).current = s.current := rfl
    unfold turnLeft
    rw [hcur, hself, if_neg hne, if_neg hne]
    cases hn : (s.procs s.current).need_resched with
    | true =>
      rw [ticked_asked hn]
      refine ⟨⟨hset, fun _ => .inl ?_⟩, rfl⟩
      rw [hcur, hself, ticked_asked hn]
    | false =>
      have h1 : 1 ≤ (s.procs s.current).time_slice := hrun.resolve_left (by simp [hn])
      obtain ⟨hs, hr⟩ := ticked_fresh hn h1
      refine ⟨⟨hset, fun _ => ?_⟩, ?_⟩
      · rw [hcur, hself, hr, hs, decide_eq_true_eq]
        omega
      · rw [hr, hs]
        by_cases hone : (s.procs s.current).time_slice = 1
        · simp [hone]
        · simp [hone]
  · next hidle =>
    have hidle : s.current = idleproc := not_not.1 hidle
    refine ⟨⟨ht.toLow.setProc hlow, fun hne => absurd hidle hne⟩, ?_⟩
    show (if ((s.setProc s.current _).procs s.current).need_resched then _ else _) = _
    rw [procs_setProc, if_pos rfl, if_pos rfl]
    unfold turnLeft
    rw [if_pos hidle]
    split <;> rfl

theorem run_timer_list_turns (ht : Turns s) (h : run_timer_list s = .ok s') :
    Turns s' ∧ s.rq.run_list <+: s'.rq.run_list ∧ picked s'.log = picked s.log ∧
      turnLeft s' = if (s.procs s.current).need_resched then 0 else turnLeft s - 1 := by
  unfold run_timer_list at h
  cases hx : tickTimers s with
  | error e =>
    rw [hx] at h
    cases h
  | ok t =>
    rw [hx] at h
    obtain rfl := Except.ok.inj h
    have ha := tickTimers_alongside hx
    obtain ⟨hturns, hleft⟩ := proc_tick_turns (ha.turns ht)
    rw [ha.turnLeft, ha.current, ha.resched] at hleft
    rw [ha.current] at hturns
    refine ⟨ha.current ▸ hturns, ?_, ?_, ?_⟩
    · unfold sched_class_proc_tick
      split <;> exact ha.list
    · unfold sched_class_proc_tick
      split <;> exact ha.picked
    · rw [ha.current]
      exact hleft

/-! ## `schedule` -/

theorem giveWay_behind (h : giveWay s = .ok s') : Behind s s' := by
  unfold giveWay at h
  extract_lets p t at h
  have hset : Behind s t :=
    ⟨rfl, List.prefix_rfl, rfl, fun hl => hl.setProc (hl.slices s.current)⟩
  split at h
  · obtain ⟨hb, -⟩ := sched_class_enqueue_behind h
    exact ⟨hb.current, hb.list, hb.picked, fun hl => hb.low (hset.low hl)⟩
  · obtain rfl := Except.ok.inj h
    exact hset

theorem Low.run (h : Low s) (next : Pid) : Low (proc_run s next) := by
  refine ⟨h.max, fun q => ?_⟩
  rw [(proc_run_procs s next q).2.1]
  exact h.slices q

/-- The head of the queue runs, for the time of its slice. -/
theorem switch_head (hq : QueueOk (fun _ => False) s) (hl : Low s) {next : Pid} {rest : List Pid}
    (hlist : s.rq.run_list = next :: rest) (h : switch s = .ok s') :
    s'.rq.run_list = rest ∧ picked s'.log = picked s.log ++ [next] ∧ Turns s' := by
  obtain ⟨hpos, -, hrq⟩ := hq.queued next (by rw [hlist]; exact List.mem_cons_self)
  obtain ⟨t, ht, hprocs, hrest, -, hpick, -⟩ := RR_dequeue_head hlist hrq
  unfold switch RR_pick_next at h
  rw [hlist] at h
  change (RR_dequeue s next >>= fun s => pure (proc_run s next)) = _ at h
  rw [ht] at h
  obtain rfl := Except.ok.inj h
  have hlow : Low t := ⟨by rw [hrest]; exact hl.max, fun q => by rw [hprocs]; exact hl.slices q⟩
  refine ⟨congrArg run_queue.run_list hrest, hpick, hlow.run next, fun _ => .inr ?_⟩
  rw [(proc_run_procs t next _).2.1, hprocs]
  exact hpos

theorem schedule_head (hq : QueueOk (· = s.current) s) (hl : Low s) {next : Pid} {rest : List Pid}
    (hlist : s.rq.run_list = next :: rest) (h : schedule s = .ok s') :
    rest <+: s'.rq.run_list ∧ picked s'.log = picked s.log ++ [next] ∧ Turns s' := by
  obtain ⟨t, ht, hok, -⟩ := giveWay_ok hq
  have hb := giveWay_behind ht
  unfold schedule at h
  rw [ht] at h
  obtain ⟨more, hmore⟩ := hb.list
  rw [hlist, List.cons_append] at hmore
  obtain ⟨hrest, hpick, hturns⟩ := switch_head hok (hb.low hl) hmore.symm h
  exact ⟨hrest ▸ List.prefix_append _ _, hb.picked ▸ hpick, hturns⟩

theorem schedule_turns (hq : QueueOk (· = s.current) s) (hl : Low s) (h : schedule s = .ok s') :
    Turns s' ∧ picked s.log <+: picked s'.log := by
  obtain ⟨t, ht, hok, -⟩ := giveWay_ok hq
  have hb := giveWay_behind ht
  unfold schedule at h
  rw [ht] at h
  change switch t = _ at h
  cases hlist : t.rq.run_list with
  | nil =>
    unfold switch RR_pick_next at h
    rw [hlist] at h
    obtain rfl := Except.ok.inj h
    exact ⟨⟨(hb.low hl).run idleproc, fun hne => absurd rfl hne⟩, hb.picked ▸ List.prefix_rfl⟩
  | cons next rest =>
    obtain ⟨-, hpick, hturns⟩ := switch_head hok (hb.low hl) hlist h
    rw [hb.picked] at hpick
    exact ⟨hturns, hpick ▸ List.prefix_append _ _⟩

/-! ## Runs -/

/-- What an event is for those that wait. -/
theorem step_alongside {e : Event} (hs : e ≠ .schedule) (hr : e ≠ .run_timer_list)
    (ha : e.Allowed s) (h : e.step s = .ok s') : Alongside s s' := by
  cases e with
  | sleep =>
    obtain rfl := Except.ok.inj h
    exact Alongside.setProc rfl rfl
  | setWait ws =>
    obtain rfl := Except.ok.inj h
    exact Alongside.setProc rfl rfl
  | exit =>
    obtain rfl := Except.ok.inj h
    exact Alongside.setProc rfl rfl
  | reap pid =>
    obtain rfl := Except.ok.inj h
    exact Alongside.setOther (by decide) ha.2
  | wakeup_proc pid => exact wakeup_proc_alongside h
  | schedule => exact absurd rfl hs
  | run_timer_list => exact absurd rfl hr
  | add_timer timer => exact add_timer_alongside h
  | del_timer addr =>
    obtain rfl := Except.ok.inj h
    exact ⟨⟨rfl, List.prefix_rfl, rfl, fun hl => ⟨hl.max, hl.slices⟩⟩, rfl, rfl⟩
  | do_sleep addr time =>
    change do_sleep s addr time = _ at h
    unfold do_sleep at h
    split at h
    · obtain rfl := Except.ok.inj h
      exact Alongside.refl s
    · have hset : Alongside s (s.setProc s.current { s.procs s.current with
          state := .PROC_SLEEPING, wait_state := WT_TIMER }) := Alongside.setProc rfl rfl
      exact hset.trans (add_timer_alongside h)

/-- Clock ticks of the run that find the current process not yet asked to give way. -/
def freshTicks : Sys → List Event → Nat
  | _, [] => 0
  | s, e :: es =>
    (if e = .run_timer_list ∧ (s.procs s.current).need_resched = false then 1 else 0) +
      match e.step s with
      | .ok s' => freshTicks s' es
      | .error _ => 0

theorem step_grows {e : Event} (hq : QueueOk (· = s.current) s) (ht : Turns s) (ha : e.Allowed s)
    (h : e.step s = .ok s') : Turns s' ∧ picked s.log <+: picked s'.log := by
  by_cases hs : e = .schedule
  · subst hs
    exact schedule_turns hq ht.toLow h
  by_cases hr : e = .run_timer_list
  · subst hr
    obtain ⟨hturns, -, hpick, -⟩ := run_timer_list_turns ht h
    exact ⟨hturns, hpick ▸ List.prefix_rfl⟩
  · have hb := step_alongside hs hr ha h
    exact ⟨hb.turns ht, hb.picked ▸ List.prefix_rfl⟩

theorem run_grows {es : List Event} (hq : QueueOk (· = s.current) s) (ht : Turns s)
    (ha : AllAllowed Event.step Event.Allowed s es) (h : runSteps Event.step s es = .ok s') :
    QueueOk (· = s'.current) s' ∧ Turns s' ∧ picked s.log <+: picked s'.log := by
  induction es generalizing s with
  | nil =>
    obtain rfl := Except.ok.inj h
    exact ⟨hq, ht, List.prefix_rfl⟩
  | cons e es ih =>
    cases he : e.step s with
    | error x =>
      change e.step s >>= _ = _ at h
      rw [he] at h
      cases h
    | ok t =>
      have hrest := ha.2
      change e.step s >>= _ = _ at h
      rw [he] at h hrest
      obtain ⟨hturns, hpick⟩ := step_grows hq ht ha.1 he
      obtain ⟨hq', ht', hpick'⟩ := ih ((step_ends hq e ha.1).ok he) hturns hrest h
      exact ⟨hq', ht', hpick.trans hpick'⟩

/-- One event: the process is picked, or the ones before it have less left of their turns. -/
theorem step_in_turn {e : Event} {l : List Pid} (hq : QueueOk (· = s.current) s) (ht : Turns s)
    (ha : e.Allowed s) (h : e.step s = .ok s') (hl : l ++ [pid] <+: s.rq.run_list) :
    picked s.log ++ l ++ [pid] <+: picked s'.log ∨
      ∃ l', l' ++ [pid] <+: s'.rq.run_list ∧ picked s'.log ++ l' = picked s.log ++ l ∧
        l'.length + (if e = .schedule then 1 else 0) = l.length ∧
        20 * (l'.length : Int) + turnLeft s' +
          (if e = .run_timer_list ∧ (s.procs s.current).need_resched = false then 1 else 0) ≤
            20 * l.length + turnLeft s := by
  by_cases hs : e = .schedule
  · subst hs
    obtain ⟨more, hmore⟩ := hl
    cases l with
    | nil =>
      obtain ⟨-, hpick, -⟩ := schedule_head hq ht.toLow hmore.symm h
      rw [hpick, List.append_nil]
      exact .inl List.prefix_rfl
    | cons a l =>
      obtain ⟨hrest, hpick, hturns⟩ := schedule_head hq ht.toLow hmore.symm h
      refine .inr ⟨l, (List.prefix_append _ _).trans hrest, ?_, rfl, ?_⟩
      · rw [hpick, List.append_assoc]
        rfl
      · have h20 := turnLeft_le hturns.toLow
        have h0 := turnLeft_nonneg hq
        rw [if_neg (by simp), List.length_cons]
        omega
  by_cases hr : e = .run_timer_list
  · subst hr
    obtain ⟨-, hlist, hpick, hleft⟩ := run_timer_list_turns ht h
    refine .inr ⟨l, hl.trans hlist, by rw [hpick], rfl, ?_⟩
    have h0 := turnLeft_nonneg hq
    rw [hleft]
    cases (s.procs s.current).need_resched with
    | true => simpa using h0
    | false =>
      simp only [Bool.false_eq_true, if_false, and_self, if_true]
      omega
  · have hb := step_alongside hs hr ha h
    refine .inr ⟨l, hl.trans hb.list, by rw [hb.picked], by rw [if_neg hs]; rfl, ?_⟩
    rw [hb.turnLeft, if_neg fun hc => hr hc.1]
    omega

/-- The process is picked behind those before it, or there have been few calls of `schedule` and
few ticks. -/
theorem run_in_turn {es : List Event} {l : List Pid} (hq : QueueOk (· = s.current) s) (ht : Turns s)
    (ha : AllAllowed Event.step Event.Allowed s es) (h : runSteps Event.step s es = .ok s')
    (hl : l ++ [pid] <+: s.rq.run_list) :
    picked s.log ++ l ++ [pid] <+: picked s'.log ∨
      es.count .schedule ≤ l.length ∧ (freshTicks s es : Int) ≤ 20 * l.length + turnLeft s := by
  induction es generalizing s l with
  | nil =>
    have h0 := turnLeft_nonneg hq
    refine .inr ⟨Nat.zero_le _, ?_⟩
    show (0 : Int) ≤ _
    omega
  | cons e es ih =>
    cases he : e.step s with
    | error x =>
      change e.step s >>= _ = _ at h
      rw [he] at h
      cases h
    | ok t =>
      have hrest := ha.2
      change e.step s >>= _ = _ at h
      rw [he] at h hrest
      have hq' := (step_ends hq e ha.1).ok he
      obtain ⟨ht', -⟩ := step_grows hq ht ha.1 he
      rcases step_in_turn hq ht ha.1 he hl with hpick | ⟨l', hl', hpick, hlen, hleft⟩
      · exact .inl (hpick.trans (run_grows hq' ht' hrest h).2.2)
      · rcases ih hq' ht' hrest h hl' with hpick' | ⟨hcount, hticks⟩
        · rw [hpick] at hpick'
          exact .inl hpick'
        · refine .inr ⟨?_, ?_⟩
          · rw [List.count_cons]
            simp only [beq_iff_eq]
            omega
          · unfold freshTicks
            rw [he]
            push_cast
            omega

end

/-- In every run a process of the run queue runs after those before it in the queue, and it has
run once `schedule` has been called once more than there are such processes, or once the clock has
ticked twenty times for each of them, for itself and for the one that runs now, where a tick counts
that finds the current process not yet asked to give way. -/
theorem run_queue_fair (es es' : List Event) (s s' : Sys) (l r : List Pid) (pid : Pid)
    (ha : AllAllowed Event.step Event.Allowed sched_init (es ++ es'))
    (hs : runSteps Event.step sched_init es = .ok s) (hs' : runSteps Event.step s es' = .ok s')
    (hl : s.rq.run_list = l ++ pid :: r)
    (h : l.length < es'.count .schedule ∨ 20 * (l.length + 1) < freshTicks s es') :
    picked s.log ++ l ++ [pid] <+: picked s'.log := by
  obtain ⟨ha, ha'⟩ := allAllowed_append ha hs
  obtain ⟨hq, ht, -⟩ := run_grows sched_init_ok sched_init_turns ha hs
  have h20 := turnLeft_le ht.toLow
  have hpre : l ++ [pid] <+: s.rq.run_list := ⟨r, by rw [hl]; simp⟩
  rcases run_in_turn hq ht ha' hs' hpre with hp | ⟨hc, hf⟩
  · exact hp
  · exfalso
    rcases h with h | h
    · omega
    · omega

/-- The state that a run ends in. -/
def stateAfter (s : Sys) (es : List Event) : Sys :=
  match runSteps Event.step s es with
  | .ok t => t
  | .error _ => s

/-- Three processes start, and the last of them is picked by the third call of `schedule`. -/
theorem run_queue_fair_three :
    let s := stateAfter sched_init [.wakeup_proc 1, .wakeup_proc 2, .wakeup_proc 3]
    picked s.log ++ [1, 2] ++ [3] <+:
      picked (stateAfter s [.schedule, .run_timer_list, .schedule, .schedule]).log :=
  run_queue_fair [.wakeup_proc 1, .wakeup_proc 2, .wakeup_proc 3]
    [.schedule, .run_timer_list, .schedule, .schedule] _ _ [1, 2] [] 3 (by decide +kernel) rfl rfl
    (by decide +kernel) (.inl (by decide))

end nehcpu.kernel.sched
