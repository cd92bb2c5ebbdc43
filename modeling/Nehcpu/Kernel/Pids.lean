-- The pids of `proc.c`: `get_pid` with the interval that it remembers, while processes come
-- and go.
import Mathlib.Data.Finset.Card
import Mathlib.Data.List.Nodup
import Mathlib.Logic.Relation
import Mathlib.Order.Interval.Finset.Nat

namespace nehcpu.kernel.pids

abbrev MAX_PROCESS : Nat := 4096
abbrev MAX_PID : Nat := MAX_PROCESS * 2

/-! ## `get_pid` -/

/-- The static variables of `get_pid`. -/
structure Statics where
  next_safe : Nat
  last_pid : Nat
deriving DecidableEq, Repr

/-- The loop over `proc_list`. The flag is `goto repeat`. -/
def scan : List Nat → Statics → Statics × Bool
  | [], st => (st, false)
  | pid :: list, st =>
    if pid = st.last_pid then
      if st.last_pid + 1 ≥ st.next_safe then
        (⟨MAX_PID, if st.last_pid + 1 ≥ MAX_PID then 1 else st.last_pid + 1⟩, true)
      else scan list { st with last_pid := st.last_pid + 1 }
    else if pid > st.last_pid ∧ st.next_safe > pid then scan list { st with next_safe := pid }
    else scan list st

/-- From `repeat` on, for a number of scans at most. -/
def scans (list : List Nat) : Nat → Statics → Option Statics
  | 0, _ => none
  | fuel + 1, st =>
    match scan list st with
    | (st, true) => scans list fuel st
    | (st, false) => some st

/-- The pid is `last_pid`. -/
def get_pid (list : List Nat) (fuel : Nat) (st : Statics) : Option Statics :=
  if st.last_pid + 1 ≥ MAX_PID then scans list fuel ⟨MAX_PID, 1⟩
  else if st.last_pid + 1 ≥ st.next_safe then scans list fuel ⟨MAX_PID, st.last_pid + 1⟩
  else some { st with last_pid := st.last_pid + 1 }

/-! ## The processes -/

/-- The pids of `proc_list`, `nr_process` and the statics. -/
structure Pids where
  proc_list : List Nat
  nr_process : Nat
  statics : Statics

/-- `proc_init`: `idleproc` counts, but is not in the list. -/
def proc_init : Pids := ⟨[], 1, ⟨MAX_PID, MAX_PID⟩⟩

/-- What happens to the pids. `do_fork` gives the new process the pid at once; a call alone is
one whose pid goes unused. -/
inductive PidStep : Pids → Pids → Prop
  | get_pid (s : Pids) (st : Statics) (fuel : Nat) : get_pid s.proc_list fuel s.statics = some st →
    PidStep s { s with statics := st }
  | do_fork (s : Pids) (st : Statics) (fuel : Nat) : s.nr_process < MAX_PROCESS →
    get_pid s.proc_list fuel s.statics = some st →
    PidStep s ⟨st.last_pid :: s.proc_list, s.nr_process + 1, st⟩
  | remove_links (s : Pids) (pid : Nat) : pid ∈ s.proc_list →
    PidStep s ⟨s.proc_list.erase pid, s.nr_process - 1, s.statics⟩

/-! ## What the scans know -/

/-- No process has a pid strictly between the two. -/
structure Safe (list : List Nat) (st : Statics) : Prop where
  first : 1 ≤ st.last_pid
  last : st.last_pid ≤ MAX_PID
  next : st.next_safe ≤ MAX_PID
  apart : ∀ pid ∈ list, ¬ (st.last_pid < pid ∧ pid < st.next_safe)

/-- In the scan: the processes seen so far have no pid from `last_pid` up to `next_safe`. -/
structure Scanned (seen : List Nat) (st : Statics) : Prop where
  first : 1 ≤ st.last_pid
  last : st.last_pid < st.next_safe
  next : st.next_safe ≤ MAX_PID
  apart : ∀ pid ∈ seen, pid < st.last_pid ∨ st.next_safe ≤ pid

theorem Scanned.start {pid : Nat} (h : 1 ≤ pid) (hlt : pid < MAX_PID) :
    Scanned [] ⟨MAX_PID, pid⟩ :=
  ⟨h, hlt, le_rfl, fun _ hp => absurd hp List.not_mem_nil⟩

/-- The next process of the list, seen. -/
theorem Scanned.over {seen : List Nat} {st : Statics} (h : Scanned seen st) {pid : Nat}
    (hp : pid < st.last_pid ∨ st.next_safe ≤ pid) : Scanned (seen ++ [pid]) st := by
  refine ⟨h.first, h.last, h.next, ?_⟩
  intro p hm
  rcases List.mem_append.1 hm with hm | hm
  · exact h.apart p hm
  · rw [List.mem_singleton.1 hm]
    exact hp

/-- `last_pid` steps over the process that has it. -/
theorem Scanned.skip {seen : List Nat} {st : Statics} (h : Scanned seen st)
    (hlt : ¬ st.last_pid + 1 ≥ st.next_safe) :
    Scanned (seen ++ [st.last_pid]) { st with last_pid := st.last_pid + 1 } := by
  have hnext : Scanned seen { st with last_pid := st.last_pid + 1 } := by
    refine ⟨Nat.le_succ_of_le h.first, Nat.lt_of_not_le hlt, h.next, ?_⟩
    intro p hp
    exact (h.apart p hp).imp_left Nat.lt_succ_of_lt
  exact hnext.over (Or.inl (Nat.lt_succ_self _))

/-- `next_safe` comes down to the process. -/
theorem Scanned.lower {seen : List Nat} {st : Statics} (h : Scanned seen st) {pid : Nat}
    (hp : pid > st.last_pid ∧ st.next_safe > pid) :
    Scanned (seen ++ [pid]) { st with next_safe := pid } := by
  have hnext : Scanned seen { st with next_safe := pid } := by
    refine ⟨h.first, hp.1, le_trans (Nat.le_of_lt hp.2) h.next, ?_⟩
    intro p hm
    exact (h.apart p hm).imp_right (le_trans (Nat.le_of_lt hp.2))
  exact hnext.over (Or.inr le_rfl)

/-- How far `last_pid` is before a pid, around from the last to the first. -/
def ahead (last_pid pid : Nat) : Nat :=
  if last_pid ≤ pid then pid - last_pid else pid + (MAX_PID - 1) - last_pid

section

variable {last_pid f : Nat}

/-- A step over a process that has another pid. -/
theorem ahead_succ (hf : 1 ≤ f) (hl : last_pid < MAX_PID) (hne : f ≠ last_pid) :
    ahead (last_pid + 1) f < ahead last_pid f := by
  unfold ahead
  rcases Nat.lt_or_gt_of_ne hne with hlt | hgt
  · rw [if_neg (by omega), if_neg (by omega)]
    omega
  · rw [if_pos (by omega), if_pos (by omega)]
    omega

/-- The step from the last pid to the first. -/
theorem ahead_one (hf : 1 ≤ f) (hf' : f < MAX_PID) (hl : last_pid < MAX_PID)
    (hlast : last_pid + 1 ≥ MAX_PID) (hne : f ≠ last_pid) : ahead 1 f < ahead last_pid f := by
  unfold ahead
  rw [if_pos hf, if_neg (by omega)]
  omega

end

/-- A scan that goes through leaves a pid that no process has. One that starts again has come
closer to any pid that is free. -/
theorem Scanned.scan {seen list : List Nat} {st st' : Statics} {again : Bool}
    (h : Scanned seen st) (hs : scan list st = (st', again)) :
    (again = false → Scanned (seen ++ list) st') ∧
    (again = true → ∃ pid, st' = ⟨MAX_PID, pid⟩ ∧ 1 ≤ pid ∧ pid < MAX_PID ∧
      ∀ f, 1 ≤ f → f < MAX_PID → f ∉ list → ahead pid f < ahead st.last_pid f) := by
  induction list generalizing seen st with
  | nil =>
    obtain ⟨rfl, rfl⟩ := Prod.mk.inj hs
    rw [List.append_nil]
    exact ⟨fun _ => h, fun hc => (Bool.false_ne_true hc).elim⟩
  | cons pid list ih =>
    have hcons : seen ++ pid :: list = seen ++ [pid] ++ list := by simp
    have hfirst := h.first
    have hlast := h.last
    have hnext := h.next
    unfold pids.scan at hs
    rw [hcons]
    split at hs
    · next heq =>
      subst heq
      have hne {f : Nat} (hmem : f ∉ st.last_pid :: list) : f ≠ st.last_pid := by
        rintro rfl
        exact hmem List.mem_cons_self
      have hlt : st.last_pid < MAX_PID := Nat.lt_of_lt_of_le hlast hnext
      split at hs
      · next hge =>
        obtain ⟨rfl, rfl⟩ := Prod.mk.inj hs
        refine ⟨fun hc => (Bool.false_ne_true hc.symm).elim, fun _ => ⟨_, rfl, ?_⟩⟩
        by_cases hlast' : st.last_pid + 1 ≥ MAX_PID
        · rw [if_pos hlast']
          refine ⟨le_rfl, by decide, ?_⟩
          intro f hf hf' hmem
          exact ahead_one hf hf' hlt hlast' (hne hmem)
        · rw [if_neg hlast']
          refine ⟨Nat.le_add_left 1 _, Nat.lt_of_not_le hlast', ?_⟩
          intro f hf hf' hmem
          exact ahead_succ hf hlt (hne hmem)
      · next hskip =>
        obtain ⟨hend, hagain⟩ := ih (h.skip hskip) hs
        refine ⟨hend, fun ha => ?_⟩
        obtain ⟨p, hst, hp1, hp2, hcloser⟩ := hagain ha
        refine ⟨p, hst, hp1, hp2, ?_⟩
        intro f hf hf' hmem
        apply (hcloser f hf hf' fun hm => hmem (List.mem_cons_of_mem _ hm)).trans
        exact ahead_succ hf hlt (hne hmem)
    · next hne =>
      have hrest {f : Nat} (hmem : f ∉ pid :: list) : f ∉ list := fun hm =>
        hmem (List.mem_cons_of_mem pid hm)
      split at hs
      · next hin =>
        obtain ⟨hend, hagain⟩ := ih (h.lower hin) hs
        refine ⟨hend, fun ha => ?_⟩
        obtain ⟨p, hst, hp1, hp2, hcloser⟩ := hagain ha
        exact ⟨p, hst, hp1, hp2, fun f hf hf' hmem => hcloser f hf hf' (hrest hmem)⟩
      · next hout =>
        have hp : pid < st.last_pid ∨ st.next_safe ≤ pid := by omega
        obtain ⟨hend, hagain⟩ := ih (h.over hp) hs
        refine ⟨hend, fun ha => ?_⟩
        obtain ⟨p, hst, hp1, hp2, hcloser⟩ := hagain ha
        exact ⟨p, hst, hp1, hp2, fun f hf hf' hmem => hcloser f hf hf' (hrest hmem)⟩

/-- Fewer processes than pids leave one. -/
theorem free_pid (list : List Nat) (h : list.length < MAX_PROCESS) :
    ∃ f, 1 ≤ f ∧ f < MAX_PID ∧ f ∉ list := by
  obtain ⟨f, hf, hmem⟩ := Finset.exists_mem_notMem_of_card_lt_card
    (s := list.toFinset) (t := Finset.Ico 1 MAX_PID) (by
      apply Nat.lt_of_le_of_lt (List.toFinset_card_le list)
      rw [Nat.card_Ico]
      exact h.trans (by decide))
  obtain ⟨hf1, hf2⟩ := Finset.mem_Ico.1 hf
  exact ⟨f, hf1, hf2, fun hm => hmem (List.mem_toFinset.2 hm)⟩

/-- As many scans as the free pid is ahead, and one, are enough. -/
theorem scans_ends {list : List Nat} {f : Nat} (hf : 1 ≤ f) (hf' : f < MAX_PID)
    (hmem : f ∉ list) (fuel : Nat) {st : Statics} (h : Scanned [] st)
    (hfuel : ahead st.last_pid f < fuel) :
    ∃ st', scans list fuel st = some st' := by
  induction fuel generalizing st with
  | zero => cases hfuel
  | succ fuel ih =>
    unfold scans
    rcases hs : scan list st with ⟨st', again⟩
    cases again with
    | false => exact ⟨st', rfl⟩
    | true =>
      obtain ⟨pid, rfl, hp1, hp2, hcloser⟩ := (h.scan hs).2 rfl
      apply ih (Scanned.start hp1 hp2)
      exact Nat.lt_of_lt_of_le (hcloser f hf hf' hmem) (Nat.le_of_lt_succ hfuel)

theorem scans_fresh {list : List Nat} (fuel : Nat) {st st' : Statics} (h : Scanned [] st)
    (hs : scans list fuel st = some st') : Scanned list st' := by
  induction fuel generalizing st with
  | zero => cases hs
  | succ fuel ih =>
    unfold scans at hs
    rcases hscan : scan list st with ⟨st1, again⟩
    rw [hscan] at hs
    cases again with
    | false =>
      obtain rfl := Option.some_inj.1 hs
      exact (h.scan hscan).1 rfl
    | true =>
      obtain ⟨pid, rfl, hp1, hp2, -⟩ := (h.scan hscan).2 rfl
      exact ih (Scanned.start hp1 hp2) hs

/-! ## One call -/

/-- The interval that `get_pid` trusts, after the step. -/
theorem Safe.advance {list : List Nat} {st : Statics} (h : Safe list st)
    (hnext : ¬ st.last_pid + 1 ≥ st.next_safe) :
    Scanned list { st with last_pid := st.last_pid + 1 } := by
  refine ⟨Nat.le_add_left 1 _, Nat.lt_of_not_le hnext, h.next, ?_⟩
  intro pid hp
  have hout := h.apart pid hp
  show pid < st.last_pid + 1 ∨ st.next_safe ≤ pid
  omega

theorem Scanned.safe {list : List Nat} {st : Statics} (h : Scanned list st) : Safe list st := by
  refine ⟨h.first, le_trans (Nat.le_of_lt h.last) h.next, h.next, ?_⟩
  intro pid hp
  have hout := h.apart pid hp
  omega

theorem Scanned.fresh {list : List Nat} {st : Statics} (h : Scanned list st) :
    1 ≤ st.last_pid ∧ st.last_pid < MAX_PID ∧ st.last_pid ∉ list := by
  refine ⟨h.first, Nat.lt_of_lt_of_le h.last h.next, ?_⟩
  intro hm
  have hout := h.apart st.last_pid hm
  have hlast := h.last
  omega

section

variable {list : List Nat} {st : Statics}

theorem Safe.get_pid {st' : Statics} {fuel : Nat} (h : Safe list st)
    (hg : get_pid list fuel st = some st') : Scanned list st' := by
  unfold pids.get_pid at hg
  split at hg
  · exact scans_fresh fuel (Scanned.start le_rfl (by decide)) hg
  · next hlt =>
    split at hg
    · exact scans_fresh fuel (Scanned.start (Nat.le_add_left 1 _) (Nat.lt_of_not_le hlt)) hg
    · next hnext =>
      obtain rfl := Option.some_inj.1 hg
      exact h.advance hnext

/-- However long the pids are used up, no free pid is as many as `MAX_PID` steps ahead. -/
theorem ahead_lt {pid f : Nat} (hp : 1 ≤ pid) (hf' : f < MAX_PID) : ahead pid f < MAX_PID := by
  unfold ahead
  split <;> omega

theorem get_pid_ends (hlen : list.length < MAX_PROCESS) {fuel : Nat} (hfuel : MAX_PID ≤ fuel) :
    ∃ st', pids.get_pid list fuel st = some st' := by
  obtain ⟨f, hf, hf', hmem⟩ := free_pid list hlen
  have hscan {pid : Nat} (hp : 1 ≤ pid) (hlt : pid < MAX_PID) :
      ∃ st', scans list fuel ⟨MAX_PID, pid⟩ = some st' :=
    scans_ends hf hf' hmem fuel (Scanned.start hp hlt) ((ahead_lt hp hf').trans_le hfuel)
  unfold pids.get_pid
  split
  · exact hscan le_rfl (by decide)
  · next hlt =>
    split
    · exact hscan (Nat.le_add_left 1 _) (Nat.lt_of_not_le hlt)
    · exact ⟨_, rfl⟩

end

/-! ## Any history -/

/-- The pids of the list are distinct pids, and the interval holds none of them. -/
structure PidsOk (s : Pids) : Prop where
  nodup : s.proc_list.Nodup
  range : ∀ pid ∈ s.proc_list, 1 ≤ pid ∧ pid < MAX_PID
  safe : Safe s.proc_list s.statics

theorem PidsOk.init : PidsOk proc_init := by
  refine ⟨List.nodup_nil, fun _ hp => absurd hp List.not_mem_nil, by decide, le_rfl, le_rfl, ?_⟩
  exact fun _ hp => absurd hp List.not_mem_nil

/-- The new process has `last_pid`, which is not inside the interval. -/
theorem PidsOk.step {s s' : Pids} (h : PidsOk s) (hs : PidStep s s') : PidsOk s' := by
  cases hs with
  | get_pid st fuel hg => exact ⟨h.nodup, h.range, (h.safe.get_pid hg).safe⟩
  | do_fork st fuel hn hg =>
    have hscan := h.safe.get_pid hg
    obtain ⟨h1, h2, hfresh⟩ := hscan.fresh
    refine ⟨List.nodup_cons.2 ⟨hfresh, h.nodup⟩, ?_, hscan.safe.first, hscan.safe.last,
      hscan.safe.next, ?_⟩
    · intro pid hp
      rcases List.mem_cons.1 hp with rfl | hp
      · exact ⟨h1, h2⟩
      · exact h.range pid hp
    · intro pid hp
      rcases List.mem_cons.1 hp with rfl | hp
      · exact fun hin => absurd hin.1 (lt_irrefl _)
      · exact hscan.safe.apart pid hp
  | remove_links pid _ =>
    refine ⟨h.nodup.erase _, fun p hp => h.range p (List.mem_of_mem_erase hp), h.safe.first,
      h.safe.last, h.safe.next, ?_⟩
    exact fun p hp => h.safe.apart p (List.mem_of_mem_erase hp)

theorem PidsOk.run {s : Pids} (h : Relation.ReflTransGen PidStep proc_init s) : PidsOk s := by
  induction h with
  | refl => exact PidsOk.init
  | tail _ hs ih => exact ih.step hs

/-- After any calls, forks and exits `get_pid` ends, as long as fewer than `MAX_PROCESS` processes
are listed, and its pid is a valid one that no listed process has. -/
theorem get_pid_ok (s : Pids) (h : Relation.ReflTransGen PidStep proc_init s)
    (hlen : s.proc_list.length < MAX_PROCESS) (fuel : Nat) (hfuel : MAX_PID ≤ fuel) :
    ∃ st, get_pid s.proc_list fuel s.statics = some st ∧
      1 ≤ st.last_pid ∧ st.last_pid ≤ MAX_PID - 1 ∧ st.last_pid ∉ s.proc_list := by
  obtain ⟨st, hg⟩ : ∃ st, get_pid s.proc_list fuel s.statics = some st :=
    get_pid_ends hlen hfuel
  obtain ⟨h1, h2, hfresh⟩ := ((PidsOk.run h).safe.get_pid hg).fresh
  exact ⟨st, hg, h1, Nat.le_sub_one_of_lt h2, hfresh⟩

/-- Two forks, and the first of them gone. -/
def afterExit : Pids := ⟨[2], 2, ⟨MAX_PID, 2⟩⟩

theorem afterExit_reached : Relation.ReflTransGen PidStep proc_init afterExit := by
  have f1 : PidStep proc_init ⟨[1], 2, ⟨MAX_PID, 1⟩⟩ :=
    .do_fork proc_init ⟨MAX_PID, 1⟩ 1 (by decide) rfl
  have f2 : PidStep ⟨[1], 2, ⟨MAX_PID, 1⟩⟩ ⟨[2, 1], 3, ⟨MAX_PID, 2⟩⟩ :=
    .do_fork ⟨[1], 2, ⟨MAX_PID, 1⟩⟩ ⟨MAX_PID, 2⟩ 1 (by decide) rfl
  have r3 : PidStep ⟨[2, 1], 3, ⟨MAX_PID, 2⟩⟩ afterExit :=
    .remove_links ⟨[2, 1], 3, ⟨MAX_PID, 2⟩⟩ 1 (by decide)
  exact ((Relation.ReflTransGen.single f1).tail f2).tail r3

theorem get_pid_ok_afterExit :
    ∃ st, get_pid [2] MAX_PID ⟨MAX_PID, 2⟩ = some st ∧ st.last_pid ∉ [2] := by
  obtain ⟨st, hg, -, -, hfresh⟩ :=
    get_pid_ok afterExit afterExit_reached (by decide) MAX_PID le_rfl
  exact ⟨st, hg, hfresh⟩

end nehcpu.kernel.pids
