-- The scheduler: the run queue of `default_sched.c`, `wakeup_proc` and `schedule`, and the list of
-- timers that the clock interrupt runs.
import Mathlib.Logic.Function.Basic
import Nehcpu.Cpu.Defines

namespace nehcpu.kernel.sched

open cpu Function

/-! ## The data -/

abbrev WT_INTERRUPTED : Word := 0x80000000#32
abbrev WT_TIMER : Word := 0x80000002#32

inductive ProcState
  | PROC_UNINIT
  | PROC_SLEEPING
  | PROC_RUNNABLE
  | PROC_ZOMBIE
deriving DecidableEq, Repr

abbrev Pid := Nat

abbrev Addr := Nat

/-- The idle process. -/
def idleproc : Pid := 0

/-- The fields of `struct proc_struct` that the scheduler uses. `rq` tells whether it points to the
run queue, and `time_slice` is a number with a sign. -/
structure proc_struct where
  state : ProcState
  runs : Nat
  need_resched : Bool
  wait_state : Word
  rq : Bool
  time_slice : Int
deriving DecidableEq, Repr

/-- What `alloc_proc` leaves in the fields. -/
def alloc_proc : proc_struct := ⟨.PROC_UNINIT, 0, false, 0#32, false, 0⟩

/-- A timer at an address. -/
structure timer_t where
  addr : Addr
  expires : Word
  proc : Pid
deriving DecidableEq, Repr

/-- The links of the processes are a list of them. -/
structure run_queue where
  run_list : List Pid
  proc_num : Nat
  max_time_slice : Int
deriving DecidableEq, Repr

/-- What has happened, for the proofs only. -/
inductive Obs
  | enqueue (pid : Pid)
  | pick (pid : Pid)
  | fire (addr : Addr)
deriving DecidableEq, Repr

structure Sys where
  procs : Pid → proc_struct
  current : Pid
  rq : run_queue
  timer_list : List timer_t
  log : List Obs

/-- The assertion that stops the kernel. -/
inductive Failed
  | wakeup
  | enqueue
  | dequeue
  | add_timer
  | run_timer_list
  | wait_state
deriving DecidableEq, Repr

def Sys.setProc (s : Sys) (pid : Pid) (p : proc_struct) : Sys :=
  { s with procs := update s.procs pid p }

def Sys.logged (s : Sys) (o : Obs) : Sys := { s with log := s.log ++ [o] }

/-- `sched_init`, and the idle process that runs. -/
def sched_init : Sys where
  procs := update (fun _ => alloc_proc) idleproc
    { alloc_proc with state := .PROC_RUNNABLE, need_resched := true }
  current := idleproc
  rq := ⟨[], 0, 20⟩
  timer_list := []
  log := []

/-! ## The run queue -/

def RR_enqueue (s : Sys) (pid : Pid) : Except Failed Sys :=
  let p := s.procs pid
  if pid ∈ s.rq.run_list then .error .enqueue
  else
    let slice :=
      if p.time_slice = 0 ∨ p.time_slice > s.rq.max_time_slice then s.rq.max_time_slice
      else p.time_slice
    .ok (({ s with rq := { s.rq with
      run_list := s.rq.run_list ++ [pid], proc_num := s.rq.proc_num + 1 } }.setProc pid
        { p with time_slice := slice, rq := true }).logged (.enqueue pid))

def RR_dequeue (s : Sys) (pid : Pid) : Except Failed Sys :=
  if pid ∈ s.rq.run_list ∧ (s.procs pid).rq then
    .ok ({ s with rq := { s.rq with
      run_list := s.rq.run_list.erase pid, proc_num := s.rq.proc_num - 1 } }.logged (.pick pid))
  else .error .dequeue

def RR_pick_next (s : Sys) : Option Pid := s.rq.run_list.head?

def RR_proc_tick (s : Sys) (pid : Pid) : Sys :=
  let p := s.procs pid
  let slice := if p.time_slice > 0 then p.time_slice - 1 else p.time_slice
  s.setProc pid
    { p with time_slice := slice, need_resched := if slice = 0 then true else p.need_resched }

def sched_class_enqueue (s : Sys) (pid : Pid) : Except Failed Sys :=
  if pid ≠ idleproc then RR_enqueue s pid else .ok s

def sched_class_proc_tick (s : Sys) (pid : Pid) : Sys :=
  if pid ≠ idleproc then RR_proc_tick s pid
  else s.setProc pid { s.procs pid with need_resched := true }

/-! ## `wakeup_proc` and `schedule` -/

def wakeup_proc (s : Sys) (pid : Pid) : Except Failed Sys :=
  let p := s.procs pid
  if p.state = .PROC_ZOMBIE then .error .wakeup
  else if p.state ≠ .PROC_RUNNABLE then
    let s := s.setProc pid { p with state := .PROC_RUNNABLE, wait_state := 0#32 }
    if pid ≠ s.current then sched_class_enqueue s pid else .ok s
  else .ok s

/-- The first part of `schedule`: the current process gives way. -/
def giveWay (s : Sys) : Except Failed Sys :=
  let s := s.setProc s.current { s.procs s.current with need_resched := false }
  if (s.procs s.current).state = .PROC_RUNNABLE then sched_class_enqueue s s.current else .ok s

/-- The end of `schedule`, where `next` is the process that was picked. -/
def proc_run (s : Sys) (next : Pid) : Sys :=
  { s.setProc next { s.procs next with runs := (s.procs next).runs + 1 } with current := next }

def switch (s : Sys) : Except Failed Sys :=
  match RR_pick_next s with
  | some next => do
    let s ← RR_dequeue s next
    pure (proc_run s next)
  | none => pure (proc_run s idleproc)

def schedule (s : Sys) : Except Failed Sys := giveWay s >>= switch

/-! ## The timers -/

/-- The walk of `add_timer` to the place of the timer. -/
def insertTimer (timer : timer_t) : List timer_t → List timer_t
  | [] => [timer]
  | next :: rest =>
    if timer.expires < next.expires then
      timer :: { next with expires := next.expires - timer.expires } :: rest
    else next :: insertTimer { timer with expires := timer.expires - next.expires } rest

/-- The timer is in a list that is not its own. -/
def Sys.Linked (s : Sys) (addr : Addr) : Prop := addr ∈ s.timer_list.map (·.addr)

instance (s : Sys) (addr : Addr) : Decidable (s.Linked addr) := inferInstanceAs (Decidable (_ ∈ _))

def add_timer (s : Sys) (timer : timer_t) : Except Failed Sys :=
  if timer.expires > 0#32 ∧ ¬ s.Linked timer.addr then
    .ok { s with timer_list := insertTimer timer s.timer_list }
  else .error .add_timer

/-- What `del_timer` does to the list. -/
def eraseTimer (addr : Addr) : List timer_t → List timer_t
  | [] => []
  | timer :: rest =>
    if timer.addr = addr then
      match rest with
      | [] => []
      | next :: rest =>
        if timer.expires ≠ 0#32 then { next with expires := next.expires + timer.expires } :: rest
        else next :: rest
    else timer :: eraseTimer addr rest

def del_timer (s : Sys) (addr : Addr) : Sys :=
  { s with timer_list := eraseTimer addr s.timer_list }

/-- One round of the loop in `run_timer_list`. -/
def fireTimer (s : Sys) (timer : timer_t) : Except Failed Sys :=
  let wait_state := (s.procs timer.proc).wait_state
  if wait_state ≠ 0#32 ∧ wait_state &&& WT_INTERRUPTED = 0#32 then .error .wait_state
  else do
    let s ← wakeup_proc s timer.proc
    pure (del_timer (s.logged (.fire timer.addr)) timer.addr)

/-- The loop, over the nodes of the list from its head on. The timer that goes has nothing left to
push on, so the ones behind it stand as they were read. -/
def fireTimers (s : Sys) : List timer_t → Except Failed Sys
  | [] => .ok s
  | timer :: rest =>
    if timer.expires = 0#32 then do
      let s ← fireTimer s timer
      fireTimers s rest
    else .ok s

/-- The part of `run_timer_list` before the tick of the process. -/
def tickTimers (s : Sys) : Except Failed Sys :=
  match s.timer_list with
  | [] => .ok s
  | timer :: rest =>
    if timer.expires ≠ 0#32 then
      let list := { timer with expires := timer.expires - 1#32 } :: rest
      fireTimers { s with timer_list := list } list
    else .error .run_timer_list

/-- `run_timer_list`, that the clock interrupt calls. -/
def run_timer_list (s : Sys) : Except Failed Sys := do
  let s ← tickTimers s
  pure (sched_class_proc_tick s s.current)

/-! ## Steps -/

/-- What happens next. Each is a stretch of code with the interrupts off, or one assignment. The
current process goes to sleep in the first two, and it comes back from its sleep in its own time:
`schedule` may come at any point. -/
inductive Event
  | sleep
  | setWait (wait_state : Word)
  | exit
  | reap (pid : Pid)
  | wakeup_proc (pid : Pid)
  | schedule
  | run_timer_list
  | add_timer (timer : timer_t)
  | del_timer (addr : Addr)
  | do_sleep (addr : Addr) (time : Word)
deriving DecidableEq, Repr

/-- The first part of `do_sleep`, with its timer on the stack. -/
def do_sleep (s : Sys) (addr : Addr) (time : Word) : Except Failed Sys :=
  if time = 0#32 then .ok s
  else
    add_timer (s.setProc s.current { s.procs s.current with
      state := .PROC_SLEEPING, wait_state := WT_TIMER }) ⟨addr, time, s.current⟩

/-- The step, or the assertion of the code that fails. -/
def Event.step (s : Sys) : Event → Except Failed Sys
  | .sleep => .ok (s.setProc s.current { s.procs s.current with state := .PROC_SLEEPING })
  | .setWait ws => .ok (s.setProc s.current { s.procs s.current with wait_state := ws })
  | .exit => .ok (s.setProc s.current { s.procs s.current with state := .PROC_ZOMBIE })
  | .reap pid => .ok (s.setProc pid alloc_proc)
  | .wakeup_proc pid => sched.wakeup_proc s pid
  | .schedule => sched.schedule s
  | .run_timer_list => sched.run_timer_list s
  | .add_timer timer => sched.add_timer s timer
  | .del_timer addr => .ok (sched.del_timer s addr)
  | .do_sleep addr time => sched.do_sleep s addr time

/-- The code allows the event now: the idle process does not exit, and only a zombie is reaped, by
another process. -/
def Event.Allowed (s : Sys) : Event → Prop
  | .exit => s.current ≠ idleproc
  | .reap pid => (s.procs pid).state = .PROC_ZOMBIE ∧ pid ≠ s.current
  | _ => True

instance (s : Sys) (e : Event) : Decidable (e.Allowed s) := by
  cases e <;> unfold Event.Allowed <;> infer_instance

/-! ## What the log says -/

def enqueued (log : List Obs) : List Pid :=
  log.filterMap fun | .enqueue pid => some pid | _ => none

def picked (log : List Obs) : List Pid := log.filterMap fun | .pick pid => some pid | _ => none

def fired (log : List Obs) : List Addr := log.filterMap fun | .fire addr => some addr | _ => none

end nehcpu.kernel.sched
