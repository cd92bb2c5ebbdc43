-- The list of timers in every order of adding, deleting and clock interrupts: the differences that it
-- stores are those of the times that the timers have left.
import Mathlib.Data.List.Perm.Basic
import Nehcpu.Lib.DeltaList
import Nehcpu.Kernel.RunQueue

namespace nehcpu.kernel.sched

open Function nehcpu.fallible nehcpu.delta

/-! ## What was asked for -/

/-- A timer that was added and has neither fired nor been deleted: the delay that was asked for, the
clock interrupts since then, and the process to wake. -/
structure Request where
  delay : Nat
  elapsed : Nat
  proc : Pid
deriving DecidableEq, Repr

abbrev Pending := Addr → Option Request

/-- The next clock interrupt is the one that was asked for. -/
def Request.Due (q : Request) : Prop := q.elapsed + 1 = q.delay

instance (q : Request) : Decidable q.Due := inferInstanceAs (Decidable (_ = _))

/-- A clock interrupt: the timers that are due are gone. -/
def Pending.tick (r : Pending) : Pending := fun addr =>
  match r addr with
  | some q => if q.Due then none else some { q with elapsed := q.elapsed + 1 }
  | none => none

/-- The timers that are pending after an event. -/
def pending (r : Pending) (s : Sys) : Event → Pending
  | .add_timer timer => update r timer.addr (some ⟨timer.expires.toNat, 0, timer.proc⟩)
  | .del_timer addr => update r addr none
  | .do_sleep addr time =>
    if time = 0#32 then r else update r addr (some ⟨time.toNat, 0, s.current⟩)
  | .run_timer_list => r.tick
  | _ => r

/-! ## The list of the kernel as a list of gaps -/

def timer_t.entry (timer : timer_t) : Entry Addr := ⟨timer.addr, timer.expires.toNat⟩

section

variable {l : List timer_t} {timer : timer_t}

theorem addrs_eq (l : List timer_t) :
    l.map (·.addr) = (times (l.map timer_t.entry)).map Prod.fst := by
  unfold times
  rw [map_fst_timesFrom, List.map_map]
  rfl

theorem insertTimer_entries (timer : timer_t) (l : List timer_t) :
    (insertTimer timer l).map timer_t.entry = delta.insert timer.entry (l.map timer_t.entry) := by
  induction l generalizing timer with
  | nil => rfl
  | cons next rest ih =>
    rw [List.map_cons]
    unfold insertTimer delta.insert
    have hlt : timer.expires < next.expires ↔ timer.entry.gap < next.entry.gap := BitVec.lt_def
    by_cases h : timer.expires < next.expires
    · have hsub : (next.expires - timer.expires).toNat = next.expires.toNat - timer.expires.toNat :=
        BitVec.toNat_sub_of_le (BitVec.le_of_lt h)
      rw [if_pos h, if_pos (hlt.1 h), List.map_cons, List.map_cons]
      simp only [timer_t.entry, hsub]
    · have hsub : (timer.expires - next.expires).toNat = timer.expires.toNat - next.expires.toNat :=
        BitVec.toNat_sub_of_le (BitVec.not_lt.1 h)
      rw [if_neg h, if_neg fun hl => h (hlt.2 hl), List.map_cons, ih]
      simp only [timer_t.entry, hsub]

/-- Nothing overflows where a timer goes: the sum is the time of the timer that follows. -/
theorem eraseTimer_entries (addr : Addr) {base : Nat}
    (hb : ∀ x ∈ timesFrom base (l.map timer_t.entry), x.2 < 2 ^ 32) :
    (eraseTimer addr l).map timer_t.entry = delta.erase addr (l.map timer_t.entry) := by
  induction l generalizing base with
  | nil => rfl
  | cons timer rest ih =>
    rw [List.map_cons, timesFrom_cons] at hb
    rw [List.map_cons]
    unfold eraseTimer delta.erase
    have hkey : timer.entry.key = timer.addr := rfl
    by_cases ha : timer.addr = addr
    · rw [if_pos ha, if_pos (hkey.trans ha)]
      cases rest with
      | nil => rfl
      | cons next rest =>
        have hlt := hb _ (List.mem_cons_of_mem _ List.mem_cons_self)
        have hsum : (next.expires + timer.expires).toNat =
            next.expires.toNat + timer.expires.toNat := by
          rw [BitVec.toNat_add, Nat.mod_eq_of_lt]
          simp only [timer_t.entry] at hlt
          omega
        by_cases he : timer.expires = 0#32
        · simp [he, push, timer_t.entry]
        · simp [he, push, timer_t.entry, hsum]
    · rw [if_neg ha, if_neg fun hk => ha (hkey.symm.trans hk), List.map_cons]
      rw [ih fun x hx => hb x (List.mem_cons_of_mem _ hx)]

theorem mem_insertTimer {new : timer_t} (h : timer ∈ insertTimer new l) :
    (timer.addr = new.addr ∧ timer.proc = new.proc) ∨
      ∃ t ∈ l, timer.addr = t.addr ∧ timer.proc = t.proc := by
  induction l generalizing new with
  | nil =>
    rw [insertTimer, List.mem_singleton] at h
    exact Or.inl ⟨h ▸ rfl, h ▸ rfl⟩
  | cons next rest ih =>
    unfold insertTimer at h
    split at h
    · simp only [List.mem_cons] at h
      rcases h with rfl | rfl | h
      · exact Or.inl ⟨rfl, rfl⟩
      · exact Or.inr ⟨next, List.mem_cons_self, rfl, rfl⟩
      · exact Or.inr ⟨timer, List.mem_cons_of_mem _ h, rfl, rfl⟩
    · rcases List.mem_cons.1 h with rfl | h
      · exact Or.inr ⟨_, List.mem_cons_self, rfl, rfl⟩
      · rcases ih h with hn | ⟨t, ht, he⟩
        · exact Or.inl hn
        · exact Or.inr ⟨t, List.mem_cons_of_mem _ ht, he⟩

theorem mem_eraseTimer {addr : Addr} (h : timer ∈ eraseTimer addr l) :
    ∃ t ∈ l, timer.addr = t.addr ∧ timer.proc = t.proc := by
  induction l with
  | nil => exact absurd h List.not_mem_nil
  | cons first rest ih =>
    unfold eraseTimer at h
    split at h
    · cases rest with
      | nil => exact absurd h List.not_mem_nil
      | cons next rest =>
        simp only at h
        split at h
        · rcases List.mem_cons.1 h with rfl | h
          · exact ⟨next, List.mem_cons_of_mem _ List.mem_cons_self, rfl, rfl⟩
          · exact ⟨timer, List.mem_cons_of_mem _ (List.mem_cons_of_mem _ h), rfl, rfl⟩
        · exact ⟨timer, List.mem_cons_of_mem _ h, rfl, rfl⟩
    · rcases List.mem_cons.1 h with rfl | h
      · exact ⟨_, List.mem_cons_self, rfl, rfl⟩
      · obtain ⟨t, ht, he⟩ := ih h
        exact ⟨t, List.mem_cons_of_mem _ ht, he⟩

end

/-! ## The invariant -/

/-- The times of the list are what the pending timers have left, and each node wakes the process
that was asked for. -/
structure TimersOk (r : Pending) (l : List timer_t) : Prop where
  nodup : (l.map (·.addr)).Nodup
  times : ∀ addr d, (addr, d) ∈ times (l.map timer_t.entry) ↔
    ∃ q, r addr = some q ∧ q.elapsed + d = q.delay
  owner : ∀ timer ∈ l, ∀ q, r timer.addr = some q → q.proc = timer.proc
  head : ∀ e ∈ (l.map timer_t.entry).head?, 0 < e.gap
  bound : ∀ addr q, r addr = some q → q.elapsed < q.delay ∧ q.delay < 2 ^ 32

section

variable {r : Pending} {l : List timer_t} {timer : timer_t}

theorem TimersOk.mem_iff (h : TimersOk r l) (addr : Addr) :
    addr ∈ l.map (·.addr) ↔ (r addr).isSome := by
  rw [addrs_eq, List.mem_map]
  constructor
  · rintro ⟨⟨a, d⟩, hm, rfl⟩
    obtain ⟨q, hq, -⟩ := (h.times _ _).1 hm
    rw [hq]
    rfl
  · intro hs
    obtain ⟨q, hq⟩ := Option.isSome_iff_exists.1 hs
    have hb := (h.bound _ _ hq).1
    refine ⟨(addr, q.delay - q.elapsed), (h.times _ _).2 ⟨q, hq, ?_⟩, rfl⟩
    omega

theorem TimersOk.times_lt (h : TimersOk r l) :
    ∀ x ∈ timesFrom 0 (l.map timer_t.entry), x.2 < 2 ^ 32 := by
  rintro ⟨addr, d⟩ hm
  obtain ⟨q, hq, hd⟩ := (h.times addr d).1 hm
  have hb := h.bound _ _ hq
  show d < 2 ^ 32
  omega

/-- The sum of the fields up to a node is the time that its timer has left. -/
theorem TimersOk.sum (h : TimersOk r l) {pre post : List timer_t}
    (hl : l = pre ++ timer :: post) :
    ∃ q, r timer.addr = some q ∧ q.proc = timer.proc ∧ q.elapsed < q.delay ∧
      ((pre ++ [timer]).map (·.expires.toNat)).sum = q.delay - q.elapsed := by
  have hsum : ((pre ++ [timer]).map (·.expires.toNat)).sum =
      ((pre.map timer_t.entry).map (·.gap)).sum + timer.entry.gap := by
    rw [List.map_append, List.sum_append, List.map_map]
    rfl
  have hm : (timer.addr, ((pre ++ [timer]).map (·.expires.toNat)).sum) ∈
      delta.times (l.map timer_t.entry) := by
    unfold delta.times
    rw [hl, List.map_append, timesFrom_append, List.map_cons, timesFrom_cons, hsum, Nat.zero_add]
    exact List.mem_append_right _ List.mem_cons_self
  obtain ⟨q, hq, hd⟩ := (h.times _ _).1 hm
  have ht : timer ∈ l := by
    rw [hl]
    exact List.mem_append_right _ List.mem_cons_self
  have hb := (h.bound _ _ hq).1
  exact ⟨q, hq, h.owner timer ht q hq, hb, by omega⟩

theorem TimersOk.add (h : TimersOk r l) (hn : timer.addr ∉ l.map (·.addr))
    (he : timer.expires > 0#32) :
    TimersOk (update r timer.addr (some ⟨timer.expires.toNat, 0, timer.proc⟩))
      (insertTimer timer l) := by
  have hpos : 0 < timer.entry.gap := BitVec.lt_def.1 he
  have hperm : (delta.times ((insertTimer timer l).map timer_t.entry)).Perm
      ((timer.addr, timer.expires.toNat) :: delta.times (l.map timer_t.entry)) := by
    have hp := timesFrom_insert 0 timer.entry (l.map timer_t.entry)
    rw [Nat.zero_add] at hp
    rw [insertTimer_entries]
    exact hp
  refine ⟨?_, ?_, ?_, ?_, ?_⟩
  · rw [addrs_eq, (hperm.map Prod.fst).nodup_iff, List.map_cons, ← addrs_eq, List.nodup_cons]
    exact ⟨hn, h.nodup⟩
  · intro addr d
    rw [hperm.mem_iff, List.mem_cons, Prod.mk.injEq]
    by_cases ha : addr = timer.addr
    · have hnot : (addr, d) ∉ delta.times (l.map timer_t.entry) := by
        intro hm
        apply hn
        rw [addrs_eq, ← ha]
        exact List.mem_map_of_mem hm
      rw [ha] at hnot ⊢
      rw [update_self]
      simp [hnot, eq_comm]
    · rw [update_of_ne ha, h.times]
      simp [ha]
  · intro t ht q hq
    rcases mem_insertTimer ht with ⟨ha, hp⟩ | ⟨t', ht', ha, hp⟩
    · rw [ha, update_self, Option.some.injEq] at hq
      rw [← hq, hp]
    · have hne : t'.addr ≠ timer.addr := by
        intro he
        exact hn (he ▸ List.mem_map_of_mem ht')
      rw [ha, update_of_ne hne] at hq
      rw [hp]
      exact h.owner t' ht' q hq
  · rw [insertTimer_entries]
    exact head_insert hpos h.head
  · intro addr q hq
    by_cases ha : addr = timer.addr
    · rw [ha, update_self, Option.some.injEq] at hq
      rw [← hq]
      exact ⟨hpos, timer.expires.isLt⟩
    · rw [update_of_ne ha] at hq
      exact h.bound addr q hq

theorem TimersOk.del (h : TimersOk r l) (addr : Addr) :
    TimersOk (update r addr none) (eraseTimer addr l) := by
  have hkeys : ((l.map timer_t.entry).map (·.key)).Nodup := by
    rw [List.map_map]
    exact h.nodup
  have htimes : delta.times ((eraseTimer addr l).map timer_t.entry) =
      (delta.times (l.map timer_t.entry)).filter fun x => x.1 ≠ addr := by
    rw [eraseTimer_entries addr h.times_lt]
    exact timesFrom_erase 0 addr hkeys
  refine ⟨?_, ?_, ?_, ?_, ?_⟩
  · rw [addrs_eq, htimes]
    have hsub : (delta.times (l.map timer_t.entry)).filter (fun x => x.1 ≠ addr) |>.Sublist
        (delta.times (l.map timer_t.entry)) := List.filter_sublist
    apply (hsub.map Prod.fst).nodup
    rw [← addrs_eq]
    exact h.nodup
  · intro a d
    rw [htimes, List.mem_filter, h.times]
    by_cases ha : a = addr
    · simp [ha]
    · simp [ha]
  · intro t ht q hq
    obtain ⟨t', ht', ha, hp⟩ := mem_eraseTimer ht
    by_cases he : t.addr = addr
    · rw [he, update_self] at hq
      cases hq
    · rw [update_of_ne he, ha] at hq
      rw [hp]
      exact h.owner t' ht' q hq
  · rw [eraseTimer_entries addr h.times_lt]
    exact head_erase h.head
  · intro a q hq
    by_cases ha : a = addr
    · rw [ha, update_self] at hq
      cases hq
    · rw [update_of_ne ha] at hq
      exact h.bound a q hq

end

/-! ## A clock interrupt -/

/-- The list with one unit less at its head. -/
def stepped : List timer_t → List timer_t
  | [] => []
  | timer :: rest => { timer with expires := timer.expires - 1#32 } :: rest

section

variable {r : Pending} {l : List timer_t} {s s' : Sys}

theorem expires_ne_zero {timer : timer_t} (h : 0 < timer.entry.gap) : timer.expires ≠ 0#32 := by
  intro he
  unfold timer_t.entry at h
  rw [he] at h
  exact absurd h (Nat.lt_irrefl 0)

theorem stepped_entries (h : ∀ e ∈ (l.map timer_t.entry).head?, 0 < e.gap) :
    (stepped l).map timer_t.entry = delta.step (l.map timer_t.entry) := by
  cases l with
  | nil => rfl
  | cons timer rest =>
    have hpos : 0 < timer.entry.gap := h timer.entry rfl
    have hsub : (timer.expires - 1#32).toNat = timer.expires.toNat - 1 :=
      BitVec.toNat_sub_of_le (BitVec.le_def.2 hpos)
    simp only [stepped, List.map_cons, delta.step, timer_t.entry, hsub]

/-- The assertion on the head holds. -/
theorem tickTimers_eq (h : ∀ e ∈ (s.timer_list.map timer_t.entry).head?, 0 < e.gap) :
    tickTimers s =
      fireTimers { s with timer_list := stepped s.timer_list } (stepped s.timer_list) := by
  unfold tickTimers
  cases hl : s.timer_list with
  | nil =>
    show Except.ok s = Except.ok _
    rw [stepped, ← hl]
  | cons timer rest =>
    rw [hl] at h
    have hpos : 0 < timer.entry.gap := h timer.entry rfl
    simp only [if_pos (expires_ne_zero hpos), stepped]

theorem tick_eq_some {addr : Addr} {q : Request} :
    r.tick addr = some q ↔
      ∃ p, r addr = some p ∧ ¬ p.Due ∧ q = { p with elapsed := p.elapsed + 1 } := by
  unfold Pending.tick
  cases hr : r addr with
  | none => simp
  | some p =>
    by_cases hd : p.Due
    · simp [hd]
    · simp [hd, eq_comm]

theorem entry_due (l : List timer_t) :
    (l.takeWhile timer_t.due).map timer_t.entry = dueRun (l.map timer_t.entry) := by
  have hdue : (fun e : Entry Addr => e.gap == 0) ∘ timer_t.entry = timer_t.due := by
    funext timer
    apply Bool.eq_iff_iff.2
    simp [timer_t.entry, timer_t.due, BitVec.toNat_eq]
  unfold dueRun
  rw [List.takeWhile_map, hdue]

theorem entry_rest (l : List timer_t) :
    (l.dropWhile timer_t.due).map timer_t.entry = delta.rest (l.map timer_t.entry) := by
  have hdue : (fun e : Entry Addr => e.gap == 0) ∘ timer_t.entry = timer_t.due := by
    funext timer
    apply Bool.eq_iff_iff.2
    simp [timer_t.entry, timer_t.due, BitVec.toNat_eq]
  unfold delta.rest
  rw [List.dropWhile_map, hdue]

theorem TimersOk.times_stepped (h : TimersOk r l) (addr : Addr) (d : Nat) :
    (addr, d) ∈ delta.times ((stepped l).map timer_t.entry) ↔
      (addr, d + 1) ∈ delta.times (l.map timer_t.entry) := by
  rw [stepped_entries h.head, timesFrom_step h.head, List.mem_map]
  constructor
  · exact fun hm => ⟨(addr, d), hm, rfl⟩
  · rintro ⟨⟨a, e⟩, hm, he⟩
    rw [Prod.mk.injEq, Nat.add_right_cancel_iff] at he
    rw [← he.1, ← he.2]
    exact hm

theorem stepped_addrs (l : List timer_t) : (stepped l).map (·.addr) = l.map (·.addr) := by
  cases l <;> rfl

theorem mem_stepped {timer : timer_t} (h : timer ∈ stepped l) :
    ∃ t ∈ l, timer.addr = t.addr ∧ timer.proc = t.proc := by
  cases l with
  | nil => exact absurd h List.not_mem_nil
  | cons first rest =>
    rcases List.mem_cons.1 h with rfl | h
    · exact ⟨first, List.mem_cons_self, rfl, rfl⟩
    · exact ⟨timer, List.mem_cons_of_mem _ h, rfl, rfl⟩

/-- The timers that fire are those that are due. -/
theorem TimersOk.mem_due (h : TimersOk r l) (addr : Addr) :
    addr ∈ ((stepped l).takeWhile timer_t.due).map (·.addr) ↔ ∃ q, r addr = some q ∧ q.Due := by
  have hkeys : ((stepped l).takeWhile timer_t.due).map (·.addr) =
      (((stepped l).takeWhile timer_t.due).map timer_t.entry).map (·.key) := by
    rw [List.map_map]
    rfl
  rw [hkeys, entry_due, times_due, List.mem_map]
  unfold Request.Due
  rw [← h.times, ← h.times_stepped addr 0]
  constructor
  · rintro ⟨⟨a, d⟩, hm, rfl⟩
    rw [List.mem_filter, decide_eq_true_eq] at hm
    have hd : d = 0 := hm.2
    rw [← hd]
    exact hm.1
  · intro hm
    exact ⟨(addr, 0), List.mem_filter.2 ⟨hm, by simp⟩, rfl⟩

theorem TimersOk.tick (h : TimersOk r l) :
    TimersOk r.tick ((stepped l).dropWhile timer_t.due) := by
  refine ⟨?_, ?_, ?_, ?_, ?_⟩
  · apply ((List.dropWhile_sublist _).map _).nodup
    rw [stepped_addrs]
    exact h.nodup
  · intro addr d
    rw [entry_rest, times_rest, List.mem_filter, h.times_stepped, h.times, decide_eq_true_eq]
    constructor
    · rintro ⟨⟨q, hq, he⟩, hd⟩
      have hd : d ≠ 0 := hd
      refine ⟨{ q with elapsed := q.elapsed + 1 }, tick_eq_some.2 ⟨q, hq, ?_, rfl⟩, ?_⟩
      · unfold Request.Due
        omega
      · show q.elapsed + 1 + d = q.delay
        omega
    · rintro ⟨q, hq, he⟩
      obtain ⟨p, hp, hnd, rfl⟩ := tick_eq_some.1 hq
      have he : p.elapsed + 1 + d = p.delay := he
      unfold Request.Due at hnd
      refine ⟨⟨p, hp, by omega⟩, ?_⟩
      show d ≠ 0
      omega
  · intro timer ht q hq
    obtain ⟨p, hp, -, rfl⟩ := tick_eq_some.1 hq
    obtain ⟨t, htl, ha, ho⟩ := mem_stepped ((List.dropWhile_sublist _).subset ht)
    rw [ha] at hp
    rw [ho]
    exact h.owner t htl p hp
  · rw [entry_rest]
    exact head_rest _
  · intro addr q hq
    obtain ⟨p, hp, hnd, rfl⟩ := tick_eq_some.1 hq
    have hb := h.bound addr p hp
    unfold Request.Due at hnd
    refine ⟨?_, hb.2⟩
    show p.elapsed + 1 < p.delay
    omega

/-- What a clock interrupt does to the timers that were pending: those that are due fire, once each,
their processes can run, and no other process is woken. -/
structure Ticked (r : Pending) (s s' : Sys) : Prop where
  fired : ∃ fs, fired s'.log = sched.fired s.log ++ fs ∧ fs.Nodup ∧
    ∀ addr, addr ∈ fs ↔ ∃ q, r addr = some q ∧ q.Due
  woken : ∀ addr q, r addr = some q → q.Due → (s'.procs q.proc).state = .PROC_RUNNABLE
  others : ∀ pid, (∀ addr q, r addr = some q → q.Due → q.proc ≠ pid) →
    (s'.procs pid).state = (s.procs pid).state

/-- The process that runs keeps its state in the tick. -/
theorem proc_tick_procs (s : Sys) (pid q : Pid) :
    ((sched_class_proc_tick s pid).procs q).state = (s.procs q).state := by
  have hset : ∀ p : proc_struct, p.state = (s.procs pid).state →
      ((s.setProc pid p).procs q).state = (s.procs q).state := by
    intro p hp
    rw [procs_setProc]
    split
    · next he => rw [he, hp]
    · rfl
  unfold sched_class_proc_tick
  split
  · exact hset _ rfl
  · exact hset _ rfl

theorem run_timer_list_spec (hq : QueueOk (· = s.current) s) (h : TimersOk r s.timer_list) :
    Ends (fun s' => QueueOk (· = s'.current) s' ∧ TimersOk r.tick s'.timer_list ∧ Ticked r s s')
      (fun e => ∃ addr q, r addr = some q ∧ q.Due ∧ Stuck s q.proc e) (run_timer_list s) := by
  -- A node that fires is one of a pending timer that is due, with its process.
  have howner : ∀ t ∈ (stepped s.timer_list).takeWhile timer_t.due,
      ∃ q, r t.addr = some q ∧ q.Due ∧ q.proc = t.proc := by
    intro t ht
    obtain ⟨q, hr, hd⟩ := (h.mem_due t.addr).1 (List.mem_map_of_mem ht)
    obtain ⟨t', ht', ha, hp⟩ := mem_stepped ((List.takeWhile_sublist _).subset ht)
    refine ⟨q, hr, hd, ?_⟩
    rw [ha] at hr
    rw [hp]
    exact h.owner t' ht' q hr
  have hset : QueueOk (· = s.current) { s with timer_list := stepped s.timer_list } :=
    hq.congr (fun _ => Iff.rfl) rfl rfl rfl rfl
  unfold run_timer_list
  rw [ends_bind, tickTimers_eq h.head]
  apply (fireTimers_ends hset rfl).mono
  · rintro u ⟨hok, hl, hf⟩
    have htl : (sched_class_proc_tick u u.current).timer_list = u.timer_list := by
      unfold sched_class_proc_tick
      split <;> rfl
    have hlog : (sched_class_proc_tick u u.current).log = u.log := by
      unfold sched_class_proc_tick
      split <;> rfl
    refine ⟨proc_tick_ok hok, ?_, ?_, ?_, ?_⟩
    · rw [htl, hl]
      exact h.tick
    · refine ⟨((stepped s.timer_list).takeWhile timer_t.due).map (·.addr), ?_, ?_, h.mem_due⟩
      · rw [hlog]
        exact hf.log
      · apply ((List.takeWhile_sublist _).map _).nodup
        rw [stepped_addrs]
        exact h.nodup
    · intro addr q hr hd
      obtain ⟨t, ht, ha⟩ := List.mem_map.1 ((h.mem_due addr).2 ⟨q, hr, hd⟩)
      obtain ⟨q', hr', -, hp⟩ := howner t ht
      have ha : t.addr = addr := ha
      rw [ha, hr, Option.some.injEq] at hr'
      rw [proc_tick_procs, hr', hp]
      exact hf.woken t ht
    · intro pid hp
      rw [proc_tick_procs]
      apply hf.others
      intro t ht he
      obtain ⟨q, hr, hd, ho⟩ := howner t ht
      exact hp t.addr q hr hd (ho.trans he)
  · rintro e ⟨t, ht, hs⟩
    obtain ⟨q, hr, hd, ho⟩ := howner t ht
    exact ⟨t.addr, q, hr, hd, ho ▸ hs⟩

/-! ## Runs -/

theorem add_timer_spec (hq : QueueOk (· = s.current) s) (h : TimersOk r s.timer_list)
    (timer : timer_t) :
    Ends (fun s' => QueueOk (· = s'.current) s' ∧
        TimersOk (update r timer.addr (some ⟨timer.expires.toNat, 0, timer.proc⟩)) s'.timer_list)
      (· ≠ .run_timer_list) (add_timer s timer) := by
  unfold add_timer
  rw [ends_ite]
  refine ⟨fun hc => ⟨?_, h.add hc.2 hc.1⟩, fun _ => by simp⟩
  exact hq.congr (fun _ => Iff.rfl) rfl rfl rfl rfl

/-- Every allowed event keeps the list in step with what was asked for. -/
theorem step_timers (hq : QueueOk (· = s.current) s) (h : TimersOk r s.timer_list) (e : Event)
    (ha : e.Allowed s) :
    Ends (fun s' => QueueOk (· = s'.current) s' ∧ TimersOk (pending r s e) s'.timer_list)
      (· ≠ .run_timer_list) (e.step s) := by
  have hqueue := step_ends hq e ha
  cases e with
  | sleep => exact ⟨hqueue, h⟩
  | setWait ws => exact ⟨hqueue, h⟩
  | exit => exact ⟨hqueue, h⟩
  | reap pid => exact ⟨hqueue, h⟩
  | wakeup_proc pid =>
    apply (wakeup_proc_ends hq pid).mono
    · rintro s' ⟨hok, hb, -⟩
      exact ⟨hok, hb.timer_list ▸ h⟩
    · rintro e ⟨rfl, -⟩
      decide
  | schedule =>
    obtain ⟨s', hs', hok, hl⟩ := schedule_ok hq
    show Ends _ _ (schedule s)
    rw [hs']
    exact ⟨hok, hl ▸ h⟩
  | run_timer_list =>
    apply (run_timer_list_spec hq h).mono
    · rintro s' ⟨hok, ht, -⟩
      exact ⟨hok, ht⟩
    · rintro e ⟨addr, q, -, -, ⟨rfl, -⟩ | ⟨rfl, -⟩⟩
      · decide
      · decide
  | add_timer timer => exact add_timer_spec hq h timer
  | del_timer addr => exact ⟨hqueue, h.del addr⟩
  | do_sleep addr time =>
    show Ends _ _ (do_sleep s addr time)
    unfold do_sleep pending
    rw [ends_ite]
    refine ⟨fun hz => ?_, fun hz => ?_⟩
    · simp only [if_pos hz]
      exact ⟨hq, h⟩
    · simp only [if_neg hz]
      refine @add_timer_spec r (s.setProc s.current _) ?_ h ⟨addr, time, s.current⟩
      exact hq.setCurrent (hq.slices s.current)

theorem no_timers_ok : TimersOk (fun _ => none) [] where
  nodup := List.nodup_nil
  times := by simp [delta.times]
  owner := by simp
  head := by simp
  bound := by simp

end

/-- After every sequence of allowed events, and for the timers that are pending then: they are the
nodes of the list, each one once; the fields up to a node sum up to the clock interrupts that its
timer has left; the next clock interrupt fires those that have one left, and wakes their processes
and no others; and it fails only where such a process cannot be woken. -/
theorem timer_list_ok (es : List Event)
    (ha : AllAllowed Event.step Event.Allowed sched_init es) (s : Sys)
    (hs : runSteps Event.step sched_init es = .ok s) :
    let r := history Event.step pending (fun _ => none) sched_init es
    (s.timer_list.map (·.addr)).Nodup ∧
    (∀ addr, addr ∈ s.timer_list.map (·.addr) ↔ (r addr).isSome) ∧
    (∀ pre timer post, s.timer_list = pre ++ timer :: post →
      ∃ q, r timer.addr = some q ∧ q.proc = timer.proc ∧ q.elapsed < q.delay ∧
        ((pre ++ [timer]).map (·.expires.toNat)).sum = q.delay - q.elapsed) ∧
    (∀ s', run_timer_list s = .ok s' → Ticked r s s') ∧
    ∀ e, run_timer_list s = .error e → ∃ addr q, r addr = some q ∧ q.Due ∧ Stuck s q.proc e := by
  intro r
  have hstep : ∀ r s e, QueueOk (· = s.current) s ∧ TimersOk r s.timer_list →
      Event.Allowed s e → Ends (fun s' => QueueOk (· = s'.current) s' ∧
        TimersOk (pending r s e) s'.timer_list) (· ≠ .run_timer_list) (Event.step s e) :=
    fun _ _ e h hae => step_timers h.1 h.2 e hae
  have hrun : Ends (fun s => QueueOk (· = s.current) s ∧ TimersOk r s.timer_list)
      (· ≠ .run_timer_list) (runSteps Event.step sched_init es) :=
    @ends_run _ _ _ _ _ _ pending (fun r s => QueueOk (· = s.current) s ∧ TimersOk r s.timer_list)
      _ hstep _ _ _ ⟨sched_init_ok, no_timers_ok⟩ ha
  obtain ⟨hq, h⟩ := hrun.ok hs
  have htick := run_timer_list_spec hq h
  exact ⟨h.nodup, h.mem_iff, fun pre timer post hl => h.sum hl, fun s' hs' => (htick.ok hs').2.2,
    fun e he => htick.error he⟩

/-- A process sleeps for three clock interrupts, and a timer of two goes in front of its timer. -/
def sleepRun : List Event :=
  [.wakeup_proc 1, .schedule, .do_sleep 4 3#32, .schedule, .add_timer ⟨8, 2#32, 1⟩,
    .run_timer_list]

theorem timer_list_ok_sleep : ∃ s, runSteps Event.step sched_init sleepRun = .ok s ∧
    s.timer_list = [⟨8, 1#32, 1⟩, ⟨4, 1#32, 1⟩] ∧ (s.timer_list.map (·.addr)).Nodup :=
  ⟨_, rfl, rfl, (timer_list_ok sleepRun (by decide +kernel) _ rfl).1⟩

end nehcpu.kernel.sched
